import BochsOs.Fs.PathCalls
import BochsOs.Userprog.ExecPages
import BochsOs.Userprog.Descriptors

/-!
# Loading a program

`Contents.Executable` says that a file is an image for `load`: the headers and the segments lie in
the file, and the segments lie in the user range.  `load` then maps the pages that the segments
need and are missing, puts the segments on them in the order of their headers, and returns the entry
(`load_executable`).  Later segments overwrite earlier ones (`overlay`), so that nothing is said
about the segments being disjoint.

The rest of a new page is whatever its frame held before, and `p_memsz` is not looked at, so there
is nothing to say about the bytes behind a segment.

All this is about the run in which the buffers of `file_read` are granted.
-/

namespace BochsOs

open ByteMemory Suspend Suspend.Prog

/-! ## Images -/

namespace Contents

variable (c : Contents)

/-- The header of the file. -/
def ehdr : Ram.Elf32Ehdr := Ram.ehdrAt c.byte

/-- Where the program header `i` starts. -/
def phdrPos (i : ℕ) : ℕ := c.ehdr.ePhoff + Ram.phdrSize * i

/-- The program header `i`. -/
def phdr (i : ℕ) : Ram.Elf32Phdr := Ram.phdrAt fun j => c.byte (c.phdrPos i + j)

/-- The loadable ones of the first `n` program headers. -/
def segments (n : ℕ) : List Ram.Elf32Phdr :=
  ((List.range n).map c.phdr).filter fun h => h.pType = Ram.ptLoad

/-- The bytes of a segment over those of `old`. -/
def put (h : Ram.Elf32Phdr) (old : ℕ → Option UInt8) (v : ℕ) : Option UInt8 :=
  if h.pVaddr ≤ v ∧ v < h.pVaddr + h.pFilesz then some (c.byte (h.pOffset + (v - h.pVaddr))) else old v

/-- The segments one over the other. -/
def overlay (segs : List Ram.Elf32Phdr) (old : ℕ → Option UInt8) : ℕ → Option UInt8 :=
  segs.foldl (fun m h => c.put h m) old

/-- A file that can be loaded. -/
structure Executable : Prop where
  header : Ram.ehdrSize ≤ c.size
  small : c.size < 139 * sectorSize
  accepted : c.ehdr.Accepted
  table : c.ehdr.ePhoff + Ram.phdrSize * c.ehdr.ePhnum ≤ c.size
  inside : ∀ h ∈ c.segments c.ehdr.ePhnum, h.pOffset + h.pFilesz ≤ c.size
  user : ∀ h ∈ c.segments c.ehdr.ePhnum,
    InUser h.pVaddr ∧ h.pVaddr + h.pFilesz ≤ Memory.kernelBase

end Contents

/-- The pages that `segment_load` looks at. -/
def Ram.Elf32Phdr.pages (h : Ram.Elf32Phdr) : Finset ℕ :=
  Memory.pagesFrom (h.pVaddr / pgSize) (Ram.occupyPages h.pFilesz h.pVaddr)

/-- The pages of all these segments. -/
def pagesOf : List Ram.Elf32Phdr → Finset ℕ
  | [] => ∅
  | h :: segs => h.pages ∪ pagesOf segs

/-- Those of these pages that are not mapped. -/
def Memory.unmapped (m : Memory) (pages : Finset ℕ) : Finset ℕ :=
  pages.filter fun p => m.mapping (p * pgSize) = none

/-- From `w` to `w'` the missing ones of these pages were mapped, and these segments of the file `c` were
put on them. -/
structure Loads (c : Contents) (pages : Finset ℕ) (segs : List Ram.Elf32Phdr) (w w' : Ram) : Prop where
  sound : w'.memory.UserSound
  took : Memory.Took (w.memory.unmapped pages) w.memory { w'.memory with kernel := w.memory.kernel }
  bytes : ∀ v < Memory.kernelBase, ∀ b, c.overlay segs w.byteAt v = some b → w'.byteAt v = some b

section Images

variable {c : Contents}

theorem Contents.segments_succ (n : ℕ) : c.segments (n + 1) =
    c.segments n ++ if (c.phdr n).pType = Ram.ptLoad then [c.phdr n] else [] := by
  unfold Contents.segments
  rw [List.range_succ, List.map_append, List.filter_append, List.map_singleton]
  simp [List.filter_cons]

theorem Contents.segments_mono {m n : ℕ} (h : m ≤ n) : c.segments m ⊆ c.segments n := by
  induction n, h using Nat.le_induction with
  | base => exact List.Subset.refl _
  | succ n _ ih =>
      rw [Contents.segments_succ]
      exact List.Subset.trans ih (List.subset_append_left _ _)

theorem pagesOf_append (segs segs' : List Ram.Elf32Phdr) :
    pagesOf (segs ++ segs') = pagesOf segs ∪ pagesOf segs' := by
  induction segs with
  | nil => exact (Finset.empty_union _).symm
  | cons h segs ih =>
      change h.pages ∪ pagesOf (segs ++ segs') = h.pages ∪ pagesOf segs ∪ pagesOf segs'
      rw [ih, Finset.union_assoc]

theorem pagesOf_mono {segs segs' : List Ram.Elf32Phdr} (h : segs ⊆ segs') :
    pagesOf segs ⊆ pagesOf segs' := by
  have hmem {h' : Ram.Elf32Phdr} {segs'' : List Ram.Elf32Phdr} (hin : h' ∈ segs'') :
      h'.pages ⊆ pagesOf segs'' := by
    induction segs'' with
    | nil => cases hin
    | cons h'' segs'' ih =>
        rcases List.mem_cons.mp hin with rfl | hin
        · exact Finset.subset_union_left
        · exact (ih hin).trans Finset.subset_union_right
  induction segs with
  | nil => exact Finset.empty_subset _
  | cons h' segs ih =>
      exact Finset.union_subset (hmem (h (List.mem_cons_self ..)))
        (ih fun x hx => h (List.mem_cons_of_mem _ hx))

/-- The bytes of a segment lie on its pages, and its pages lie in the user range. -/
theorem Ram.Elf32Phdr.pages_user {h : Ram.Elf32Phdr} (huser : InUser h.pVaddr)
    (hend : h.pVaddr + h.pFilesz ≤ Memory.kernelBase) :
    h.pages ⊆ Memory.userPages ∧ ∀ i < h.pFilesz, (h.pVaddr + i) / pgSize ∈ h.pages := by
  obtain ⟨hlow, hhigh⟩ := huser
  unfold userVaddrStart at hlow
  unfold Memory.kernelBase at hhigh hend
  unfold Ram.Elf32Phdr.pages Memory.pagesFrom Ram.occupyPages divRoundUp Memory.pageCnt pgSize
  constructor
  · intro p hp
    obtain ⟨i, hi, rfl⟩ := Finset.mem_image.mp hp
    rw [Finset.mem_range] at hi
    rw [Memory.mem_userPages]
    dsimp only at hi ⊢
    split at hi <;> omega
  · intro i hi
    refine Finset.mem_image.mpr ⟨(h.pVaddr + i) / 4096 - h.pVaddr / 4096, Finset.mem_range.mpr ?_, ?_⟩
    · dsimp only
      split <;> omega
    · omega

/-- The header in the buffer is the header in the file. -/
theorem Contents.ehdrAt_copy :
    Ram.ehdrAt (copy zeroBuf 0 c.byte 0 Ram.ehdrSize) = c.ehdr := by
  have hbyte {o : ℕ} (ho : o < Ram.ehdrSize) : copy zeroBuf 0 c.byte 0 Ram.ehdrSize o = c.byte o := by
    rw [copy_inside (Nat.zero_le _) (by omega), Nat.sub_zero, Nat.zero_add]
  have hhalf {o : ℕ} (ho : o + 2 ≤ Ram.ehdrSize) :
      Ram.readU16 (copy zeroBuf 0 c.byte 0 Ram.ehdrSize) o = Ram.readU16 c.byte o := by
    unfold Ram.readU16
    rw [hbyte (by omega), hbyte (by omega)]
  have hword {o : ℕ} (ho : o + 4 ≤ Ram.ehdrSize) :
      readU32 (copy zeroBuf 0 c.byte 0 Ram.ehdrSize) o = readU32 c.byte o :=
    readU32_congr fun j hj => hbyte (by omega)
  have hident : (List.range 16).map (copy zeroBuf 0 c.byte 0 Ram.ehdrSize) = (List.range 16).map c.byte :=
    List.map_congr_left fun o ho => hbyte ((List.mem_range.mp ho).trans (by decide))
  unfold Contents.ehdr Ram.ehdrAt
  rw [hident, hhalf (by decide), hhalf (by decide), hword (by decide), hword (by decide),
    hword (by decide), hhalf (by decide), hhalf (by decide)]

theorem Contents.phdrAt_copy (i : ℕ) :
    Ram.phdrAt (copy zeroBuf 0 c.byte (c.phdrPos i) Ram.phdrSize) = c.phdr i := by
  have hword {o : ℕ} (ho : o + 4 ≤ Ram.phdrSize) :
      readU32 (copy zeroBuf 0 c.byte (c.phdrPos i) Ram.phdrSize) o =
        readU32 (fun j => c.byte (c.phdrPos i + j)) o :=
    readU32_congr fun j hj => by rw [copy_inside (Nat.zero_le _) (by omega), Nat.sub_zero]
  unfold Contents.phdr Ram.phdrAt
  rw [hword (by decide), hword (by decide), hword (by decide), hword (by decide)]

end Images

/-! ## Calls of the file system -/

namespace Ram

/-- The state with another kernel. -/
def setKernel (w : Ram) (k : Kernel) : Ram := { w with memory := { w.memory with kernel := k } }

theorem outcome_onMemory {α : Type} {x : Prog Memory α} {w : Ram} {r : α} {m : Memory}
    (h : x.outcome w.memory = .ok (r, m)) :
    (onMemory x).outcome w = .ok (r, { w with memory := m }) := by
  unfold onMemory
  rw [outcome_focus]
  · rw [h]
    rfl
  · exact fun _ _ => rfl
  · exact fun _ _ _ => rfl
  · exact fun _ => rfl

theorem outcome_onKernel {α : Type} {x : Prog Kernel α} {w : Ram} {r : α} {k : Kernel}
    (h : x.outcome w.memory.kernel = .ok (r, k)) :
    (onKernel x).outcome w = .ok (r, w.setKernel k) := by
  refine outcome_onMemory (m := { w.memory with kernel := k }) ?_
  unfold Memory.onKernel
  rw [outcome_focus]
  · rw [h]
    rfl
  · exact fun _ _ => rfl
  · exact fun _ _ _ => rfl
  · exact fun _ => rfl

end Ram

theorem Memory.UserSound.setKernel {m : Memory} (hm : m.UserSound) {k : Kernel}
    (hrunning : k.running = m.kernel.running) (hprocess : k.cur.isProcess = true) :
    UserSound { m with kernel := k } where
  process := hprocess
  len := by
    change (m.spaces k.running).vaddrBitmap.btmpBytesLen = _
    rw [hrunning]
    exact hm.len
  tables := ⟨hm.tables.inj, hm.tables.held⟩
  apart := hm.apart
  fresh := hm.fresh
  room := hm.room

/-- Pages that were missing, and pages that are still missing when these are mapped. -/
theorem Memory.Took.unmapped_union {m m' : Memory} {P Q : Finset ℕ} (h : Took (m.unmapped P) m m') :
    m.unmapped (P ∪ Q) = m.unmapped P ∪ m'.unmapped Q := by
  ext p
  simp only [unmapped, Finset.mem_filter, Finset.mem_union]
  by_cases hp : p ∈ m.unmapped P
  · have hnone := (Finset.mem_filter.mp hp).2
    have hin := (Finset.mem_filter.mp hp).1
    simp [hnone, hin]
  · rw [h.mapping_page_ne hp]
    have hout : ¬ (p ∈ P ∧ m.mapping (p * pgSize) = none) := fun hin => hp (Finset.mem_filter.mpr hin)
    tauto

theorem Memory.Took.setKernel {m m' : Memory} {T : Finset ℕ} (h : Took T m m') (k : Kernel) :
    Took T { m with kernel := k } { m' with kernel := k } :=
  ⟨rfl, h.user, h.absent, h.present, h.other, h.card⟩

/-! ## The run of `load` -/

/-- A run of `load` after some pages and some segments: the file is open at `pos`. -/
structure Loading (w₀ : Ram) (k₁ : Kernel) (g : ℕ) (c : Contents) (pages : Finset ℕ)
    (segs : List Ram.Elf32Phdr) (pos : ℕ) (w : Ram) : Prop where
  kernel : w.memory.kernel = k₁.setPos g pos
  le : pos ≤ c.size
  loads : Loads c pages segs w₀ w

section Loading

variable {t : Transfer} {w₀ w : Ram} {k₁ : Kernel} {fd g a pos n off : ℕ} {pages : Finset ℕ}
  {segs : List Ram.Elf32Phdr}
  (hat : k₁.OpenAt fd g a) (hread : Readable k₁.disk (k₁.inodes a))
  (hsmall : (k₁.fileOf a).size < 139 * sectorSize) (h : Loading w₀ k₁ g (k₁.fileOf a) pages segs pos w)

include h

/-- The state with the file at another position. -/
theorem Loading.setPos (hpos : n ≤ (k₁.fileOf a).size) :
    Loading w₀ k₁ g (k₁.fileOf a) pages segs n (w.setKernel (k₁.setPos g n)) where
  kernel := rfl
  le := hpos
  loads := by
    have hprocess := h.loads.sound.process
    rw [h.kernel, Kernel.cur_setPos] at hprocess
    refine ⟨h.loads.sound.setKernel ?_ ?_, h.loads.took, h.loads.bytes⟩
    · rw [h.kernel]
      rfl
    · rwa [Kernel.cur_setPos]

include hat hsmall

/-- Moving to an offset from the start. -/
theorem Loading.seek (hoff : off < 2 ^ 32) : ∃ ret,
    (Ram.onKernel (sysLseek (fd : ℤ) (asInt32 off) .set)).outcome w =
      .ok (ret, w.setKernel (k₁.setPos g ((k₁.fileOf a).seekPos pos off))) := by
  have hsize : ((k₁.setPos g pos).fileOf a).size < 2 ^ 31 := hsmall.trans (by decide)
  obtain ⟨ret, hseek⟩ := (hat.setPos pos).outcome_sysLseek hsize
    (by rw [Kernel.fileTable_setPos]) hoff
  rw [← h.kernel] at hseek
  refine ⟨ret, ?_⟩
  rw [Ram.outcome_onKernel hseek, h.kernel, Kernel.setPos_setPos]
  rfl

include hread

/-- Reading what there is. -/
theorem Loading.readSome (hn : pos + n < 2 ^ 32) :
    (Ram.onKernel (sysRead t (fd : ℤ) zeroBuf n)).outcome w =
      .ok (((k₁.fileOf a).readRet pos n,
        copy zeroBuf 0 (k₁.fileOf a).byte pos ((k₁.fileOf a).readLen pos n)),
        w.setKernel (k₁.setPos g (pos + (k₁.fileOf a).readLen pos n))) := by
  have hlen : pos + (k₁.fileOf a).readLen pos n ≤ (k₁.fileOf a).size := Contents.readLen_le h.le
  have hout : (fileRead t g zeroBuf n).outcome (k₁.setPos g pos) =
      .ok (((k₁.fileOf a).readRet pos n,
        copy zeroBuf 0 (k₁.fileOf a).byte pos ((k₁.fileOf a).readLen pos n)),
        (k₁.setPos g pos).setPos g (pos + (k₁.fileOf a).readLen pos n)) :=
    outcome_fileRead (k := k₁.setPos g pos) (hat.setPos pos).inode hread
      (by rw [Kernel.fileTable_setPos]) h.le hn (Or.inr (hlen.trans_lt hsmall))
  rw [← (hat.setPos pos).outcome_sysRead, ← h.kernel] at hout
  rw [Ram.outcome_onKernel hout, h.kernel, Kernel.setPos_setPos]

/-- Reading bytes that are there. -/
theorem Loading.read (hn : pos + n ≤ (k₁.fileOf a).size) :
    (Ram.onKernel (sysRead t (fd : ℤ) zeroBuf n)).outcome w =
      .ok (((n : ℤ), copy zeroBuf 0 (k₁.fileOf a).byte pos n), w.setKernel (k₁.setPos g (pos + n))) := by
  have hlen : (k₁.fileOf a).readLen pos n = n := min_eq_left (by omega)
  have hret : (k₁.fileOf a).readRet pos n = n := by
    rw [Contents.readRet, if_neg (by omega), hlen]
  have hout := h.readSome (t := t) hat hread hsmall (hn.trans_lt (hsmall.trans (by decide)))
  rwa [hlen, hret] at hout

omit h hsmall hread hat in
theorem overlay_append_singleton {c : Contents} {hdr : Ram.Elf32Phdr} {old : ℕ → Option UInt8} :
    c.overlay (segs ++ [hdr]) old = c.put hdr (c.overlay segs old) := by
  rw [Contents.overlay, List.foldl_append]
  rfl

omit hread hsmall hat in
/-- The pages of a segment are taken. -/
theorem Loading.takePages {hdr : Ram.Elf32Phdr} (huser : hdr.pages ⊆ Memory.userPages)
    (hroom : (w₀.memory.unmapped (pages ∪ hdr.pages)).card ≤ (w₀.memory.freeFrames .user).card)
    (hlow : hdr.pVaddr < 2 ^ 32) : ∃ w',
    (Ram.onMemory (Ram.takePages (Ram.occupyPages hdr.pFilesz hdr.pVaddr)
      (hdr.pVaddr / pgSize * pgSize))).outcome w = .ok (true, w') ∧
      Loading w₀ k₁ g (k₁.fileOf a) (pages ∪ hdr.pages) segs pos w' ∧
      ∀ p ∈ hdr.pages, w'.memory.mapping (p * pgSize) ≠ none := by
  have htook := h.loads.took
  have hfirst : hdr.pVaddr / pgSize < Memory.pageCnt := by
    unfold pgSize Memory.pageCnt
    omega
  have hunion : w₀.memory.unmapped (pages ∪ hdr.pages) =
      w₀.memory.unmapped pages ∪ w.memory.unmapped hdr.pages := htook.unmapped_union
  have hdisj : Disjoint (w₀.memory.unmapped pages) (w.memory.unmapped hdr.pages) := by
    rw [Finset.disjoint_left]
    exact fun p hp hp' => htook.present p hp (Finset.mem_filter.mp hp').2
  have hfits : w.memory.FitsIn (hdr.pVaddr / pgSize) (Ram.occupyPages hdr.pFilesz hdr.pVaddr) := by
    refine ⟨(Finset.filter_subset _ _).trans huser, ?_⟩
    rw [hunion, Finset.card_union_of_disjoint hdisj, ← htook.card] at hroom
    exact Nat.le_of_add_le_add_left (hroom.trans (Nat.add_comm _ _).le)
  obtain ⟨m', hout, hsound, htook'⟩ := (h.loads.sound.takePages hfirst).1 hfits
  have hneed : w.memory.need (hdr.pVaddr / pgSize) (Ram.occupyPages hdr.pFilesz hdr.pVaddr) =
      w.memory.unmapped hdr.pages := rfl
  rw [hneed] at htook'
  refine ⟨_, Ram.outcome_onMemory hout, ⟨htook'.kernel.trans h.kernel, h.le, hsound, ?_, fun v hv b hb => ?_⟩,
    fun p hp => ?_⟩
  · rw [hunion]
    exact htook.trans (htook'.setKernel _)
  · have hold := h.loads.bytes v hv b hb
    have hpage : v / pgSize ∉ w.memory.unmapped hdr.pages := fun hin => by
      have hnone := (Finset.mem_filter.mp hin).2
      rw [Memory.mapping_page] at hnone
      rw [Ram.byteAt, hnone] at hold
      cases hold
    rw [← hold, Ram.byteAt, Ram.byteAt, htook'.other v hpage]
  · by_cases hnone : w.memory.mapping (p * pgSize) = none
    · exact htook'.present p (Finset.mem_filter.mpr ⟨hp, hnone⟩)
    · rwa [htook'.mapping_page_ne fun hin => hnone (Finset.mem_filter.mp hin).2]

/-- One segment. -/
theorem Loading.segment {hdr : Ram.Elf32Phdr} (hinside : hdr.pOffset + hdr.pFilesz ≤ (k₁.fileOf a).size)
    (huser : InUser hdr.pVaddr) (hend : hdr.pVaddr + hdr.pFilesz ≤ Memory.kernelBase)
    (hroom : (w₀.memory.unmapped (pages ∪ hdr.pages)).card ≤ (w₀.memory.freeFrames .user).card) :
    ∃ w' pos', (Ram.segmentLoad t (fd : ℤ) hdr.pOffset hdr.pFilesz hdr.pVaddr).outcome w = .ok (true, w') ∧
      Loading w₀ k₁ g (k₁.fileOf a) (pages ∪ hdr.pages) (segs ++ [hdr]) pos' w' := by
  obtain ⟨hpages, hbytes⟩ := Ram.Elf32Phdr.pages_user huser hend
  have hlow : hdr.pVaddr < 2 ^ 32 := huser.2.trans (by decide)
  have hoff : hdr.pOffset < 2 ^ 32 := by
    have := hsmall.trans (show 139 * sectorSize < 2 ^ 32 by decide)
    omega
  obtain ⟨w₁, htake, h₁, hmapped⟩ := h.takePages hpages hroom hlow
  obtain ⟨_, hseek⟩ := h₁.seek hat hsmall hoff
  have hsought : (k₁.fileOf a).seekPos pos hdr.pOffset ≤ (k₁.fileOf a).size := Contents.seekPos_le h.le
  have h₂ := h₁.setPos hsought
  -- the position only matters when there are bytes
  have hpos (i : ℕ) (hi : i < hdr.pFilesz) :
      (k₁.fileOf a).seekPos pos hdr.pOffset + i = hdr.pOffset + i := by
    rw [Contents.seekPos, if_pos (by omega)]
  have hle : (k₁.fileOf a).seekPos pos hdr.pOffset + hdr.pFilesz ≤ (k₁.fileOf a).size := by
    rcases Nat.eq_zero_or_pos hdr.pFilesz with hzero | hsome
    · rw [hzero]
      exact h₂.le
    · have := hpos 0 hsome
      omega
  have hread' := h₂.read (t := t) hat hread hsmall hle
  have h₃ := h₂.setPos hle
  have hstorable (i : ℕ) (_ : 0 ≤ i) (hi : i < 0 + hdr.pFilesz) :
      Ram.Storable ((w₁.setKernel (k₁.setPos g ((k₁.fileOf a).seekPos pos hdr.pOffset))).setKernel
        (k₁.setPos g ((k₁.fileOf a).seekPos pos hdr.pOffset + hdr.pFilesz))) (hdr.pVaddr + i) := by
    rw [Nat.zero_add] at hi
    refine ⟨⟨huser.1.trans (Nat.le_add_right _ _), by omega⟩, ?_⟩
    rw [← Memory.mapping_page]
    exact hmapped _ (hbytes i hi)
  obtain ⟨w₄, hstore, hstored⟩ := Ram.storeBytes_stored h₃.loads.sound hstorable
  rw [Nat.zero_add] at hstored
  refine ⟨w₄, _, ?_, ?_, hle, ?_, ?_, fun v hv b hb => ?_⟩
  · rw [Ram.segmentLoad, outcome_bind_ok htake, if_neg (by decide), outcome_bind_ok hseek,
      outcome_bind_ok hread']
    dsimp only
    rw [Int.toNat_natCast, outcome_bind_ok hstore]
    rfl
  · rw [hstored.memory, h₃.kernel]
  · rw [hstored.memory]
    exact h₃.loads.sound
  · rw [hstored.memory]
    exact h₃.loads.took
  · rw [overlay_append_singleton, Contents.put] at hb
    by_cases hin : hdr.pVaddr ≤ v ∧ v < hdr.pVaddr + hdr.pFilesz
    · obtain ⟨i, rfl⟩ := Nat.exists_eq_add_of_le hin.1
      have hi : i < hdr.pFilesz := by omega
      rw [if_pos hin, Nat.add_sub_cancel_left] at hb
      rw [hstored.inside i (Nat.zero_le i) hi, copy_inside (Nat.zero_le i) (by omega), Nat.sub_zero,
        hpos i hi, hb]
    · rw [if_neg hin] at hb
      rw [hstored.outside v hv (by omega)]
      exact h₃.loads.bytes v hv b hb

omit h hsmall in
/-- All headers from `i` on. -/
theorem Loading.phdrs (hexec : (k₁.fileOf a).Executable) {i left : ℕ}
    (hleft : i + left = (k₁.fileOf a).ehdr.ePhnum)
    (hroom : (w₀.memory.unmapped (pagesOf ((k₁.fileOf a).segments (k₁.fileOf a).ehdr.ePhnum))).card ≤
      (w₀.memory.freeFrames .user).card)
    (h : Loading w₀ k₁ g (k₁.fileOf a) (pagesOf ((k₁.fileOf a).segments i)) ((k₁.fileOf a).segments i)
      pos w) :
    ∃ w' pos', (Ram.loadPhdrs t (fd : ℤ) Ram.phdrSize left ((k₁.fileOf a).phdrPos i)).outcome w =
        .ok (true, w') ∧
      Loading w₀ k₁ g (k₁.fileOf a) (pagesOf ((k₁.fileOf a).segments (k₁.fileOf a).ehdr.ePhnum))
        ((k₁.fileOf a).segments (k₁.fileOf a).ehdr.ePhnum) pos' w' := by
  induction left generalizing i pos w with
  | zero =>
      rw [Nat.add_zero] at hleft
      rw [← hleft]
      exact ⟨w, pos, rfl, h⟩
  | succ left ih =>
      have htable := hexec.table
      have hsmall' : (k₁.fileOf a).size < 2 ^ 32 := hexec.small.trans (by decide)
      have hend : (k₁.fileOf a).phdrPos i + Ram.phdrSize ≤ (k₁.fileOf a).size := by
        refine le_trans ?_ htable
        unfold Contents.phdrPos
        rw [Nat.add_assoc, ← Nat.mul_succ]
        exact Nat.add_le_add_left (Nat.mul_le_mul_left _ (by omega)) _
      have hin : (k₁.fileOf a).phdrPos i < (k₁.fileOf a).size := by
        unfold Ram.phdrSize at hend
        omega
      have hnext : addU32 ((k₁.fileOf a).phdrPos i) Ram.phdrSize = (k₁.fileOf a).phdrPos (i + 1) := by
        rw [addU32_of_lt (by omega)]
        rfl
      obtain ⟨_, hseek⟩ := h.seek hat hexec.small (hin.trans hsmall')
      have h₁ := h.setPos hin.le
      rw [Contents.seekPos, if_pos hin] at hseek
      have hread' := h₁.read (t := t) hat hread hexec.small hend
      have h₂ := h₁.setPos hend
      rw [Ram.loadPhdrs, outcome_bind_ok hseek, outcome_bind_ok hread']
      dsimp only
      rw [if_neg (not_not.mpr rfl), Contents.phdrAt_copy]
      have hsucc := (k₁.fileOf a).segments_succ i
      by_cases hload : ((k₁.fileOf a).phdr i).pType = Ram.ptLoad
      · rw [if_pos hload] at hsucc
        have hsub : (k₁.fileOf a).segments (i + 1) ⊆
            (k₁.fileOf a).segments (k₁.fileOf a).ehdr.ePhnum := Contents.segments_mono (by omega)
        have hmem : (k₁.fileOf a).phdr i ∈ (k₁.fileOf a).segments (k₁.fileOf a).ehdr.ePhnum :=
          hsub (by rw [hsucc]; exact List.mem_append_right _ (List.mem_singleton_self _))
        have hpages : pagesOf ((k₁.fileOf a).segments (i + 1)) =
            pagesOf ((k₁.fileOf a).segments i) ∪ ((k₁.fileOf a).phdr i).pages := by
          rw [hsucc, pagesOf_append]
          exact congrArg _ (Finset.union_empty _)
        obtain ⟨w₃, pos₃, hseg, h₃⟩ := h₂.segment (t := t) hat hread hexec.small (hexec.inside _ hmem)
          (hexec.user _ hmem).1 (hexec.user _ hmem).2 (by
            rw [← hpages]
            exact (Finset.card_le_card (Finset.filter_subset_filter _ (pagesOf_mono hsub))).trans hroom)
        rw [← hpages, ← hsucc] at h₃
        rw [if_pos hload, outcome_bind_ok hseg, if_neg (by decide), hnext]
        exact ih (by omega) h₃
      · rw [if_neg hload, List.append_nil] at hsucc
        rw [← hsucc] at h₂
        rw [if_neg hload, outcome_bind_ok rfl, if_neg (by decide), hnext]
        exact ih (by omega) h₂

omit h hsmall in
/-- An image, once its file is open. -/
theorem Loading.opened (hexec : (k₁.fileOf a).Executable)
    (hroom : (w₀.memory.unmapped (pagesOf ((k₁.fileOf a).segments (k₁.fileOf a).ehdr.ePhnum))).card ≤
      (w₀.memory.freeFrames .user).card)
    (h : Loading w₀ k₁ g (k₁.fileOf a) ∅ [] 0 w) :
    ∃ w' pos', (Ram.loadOpened t (fd : ℤ)).outcome w = .ok (asInt32 (k₁.fileOf a).ehdr.eEntry, w') ∧
      Loading w₀ k₁ g (k₁.fileOf a) (pagesOf ((k₁.fileOf a).segments (k₁.fileOf a).ehdr.ePhnum))
        ((k₁.fileOf a).segments (k₁.fileOf a).ehdr.ePhnum) pos' w' := by
  have hheader : 0 + Ram.ehdrSize ≤ (k₁.fileOf a).size := by
    rw [Nat.zero_add]
    exact hexec.header
  have hread' := h.read (t := t) hat hread hexec.small hheader
  have hfirst : (k₁.fileOf a).phdrPos 0 = (k₁.fileOf a).ehdr.ePhoff := Nat.add_zero _
  obtain ⟨w', pos', hphdrs, h'⟩ := (h.setPos hheader).phdrs (t := t) hat hread hexec
    (i := 0) (Nat.zero_add _) hroom
  rw [hfirst] at hphdrs
  refine ⟨w', pos', ?_, h'⟩
  rw [Ram.loadOpened, outcome_bind_ok hread']
  dsimp only
  rw [if_neg (not_not.mpr rfl), Contents.ehdrAt_copy, if_neg (not_not.mpr hexec.accepted),
    hexec.accepted.phentsize, outcome_bind_ok hphdrs]
  rfl

end Loading

/-! ## `load` -/

/-- The same process runs, in an address space of the same kind. -/
structure SameRunner (k k' : Kernel) : Prop where
  running : k'.running = k.running
  process : k'.cur.isProcess = k.cur.isProcess

instance : IsPreorder Kernel SameRunner where
  refl _ := ⟨rfl, rfl⟩
  trans _ _ _ h h' := ⟨h'.running.trans h.running, h'.process.trans h.process⟩

instance : WalkFrame SameRunner where
  count _ _ _ := ⟨rfl, rfl⟩
  erase _ _ := ⟨rfl, rfl⟩
  alloc _ := ⟨rfl, rfl⟩
  newInode _ _ := ⟨rfl, rfl⟩
  newDir _ _ := ⟨rfl, rfl⟩
  freeDir _ _ := ⟨rfl, rfl⟩

theorem pcbFdInstall_sameRunner (g : ℕ) : Within SameRunner (pcbFdInstall g) := by
  refine .read_bind fun k => ?_
  split
  next localFd _ =>
    refine ⟨refl k, rfl, ?_⟩
    change (Function.update k.tasks k.running _ k.running).isProcess = _
    rw [Function.update_self]
  next => exact refl k

theorem fileOpen_sameRunner (t : Transfer) (inodeNo flag : ℕ) :
    Within SameRunner (fileOpen t inodeNo flag) := by
  have hfile (g : ℕ) (file : Kernel → File) :
      Within SameRunner (modify fun k => k.setFile g (file k)) := .modify fun _ => ⟨rfl, rfl⟩
  refine getFreeSlotInGlobal_same.of_eq.bind fun slot => ?_
  cases slot with
  | none => exact .pure _
  | some fdI =>
      refine (inodeOpen_within t inodeNo).bind fun a =>
        (hfile fdI fun _ => ⟨0, flag, some a⟩).bind fun _ => ?_
      split
      · refine .read_bind fun k => ?_
        split
        · exact refl k
        · have hset : SameRunner k (k.setInode a { k.inodes a with writeDeny := true }) := ⟨rfl, rfl⟩
          exact always_bind.mpr ⟨⟨refl k, hset⟩, (pcbFdInstall_sameRunner fdI).always_of hset⟩
      · exact pcbFdInstall_sameRunner fdI

/-- Opening a file without creating it. -/
theorem sysOpen_sameRunner (t : Transfer) (pathname : CString) :
    Within SameRunner (sysOpen t pathname 0) := by
  have hclose (record : PathSearchRecord) (ret : ℤ) :
      Within SameRunner (do dirClose record.parentDir; return ret : Prog Kernel ℤ) :=
    (dirClose_within _).bind fun _ => .pure _
  refine .bind .arbitrary fun before => ?_
  split
  · exact .pure _
  refine (Within.assert _).bind fun _ => ?_
  refine (pathDepthCnt_same _).of_eq.bind fun depth => ?_
  refine (searchFile_within t pathname).bind fun found => ?_
  obtain ⟨inodeNo, record⟩ := found
  dsimp only
  split
  · exact hclose _ _
  refine (pathDepthCnt_same _).of_eq.bind fun searched => ?_
  split
  · exact hclose _ _
  cases inodeNo with
  | none => exact hclose _ _
  | some inodeNo => exact fileOpen_sameRunner t inodeNo 0

/-- An open file without flags, and the states of `load` from there on. -/
theorem Loading.start {w : Ram} {k₁ : Kernel} {t : Transfer} {path : CString} {ret : ℤ}
    (hsound : w.memory.UserSound) (hopen : (sysOpen t path 0).outcome w.memory.kernel = .ok (ret, k₁))
    (hret : ret ≠ -1) : ∃ fd g a, ret = (fd : ℕ) ∧ k₁.OpenAt fd g a ∧
      Loading w k₁ g (k₁.fileOf a) ∅ [] 0 (w.setKernel k₁) := by
  obtain ⟨hinstalls, -⟩ := outcome_of_wp sysOpen_installs hopen
  have hrunner := outcome_of_wp (wp_of_always (sysOpen_sameRunner t path w.memory.kernel)) hopen
  obtain ⟨hfail, -⟩ | ⟨fd, g, a, hlow, hhigh, hg, hfd, -, -, hfile, htasks⟩ := hinstalls.result
  · exact absurd hfail hret
  have hat : k₁.OpenAt fd g a := by
    refine ⟨hlow, hhigh, ?_, hg, ?_, ?_⟩
    · rw [Kernel.cur, htasks, hrunner.running, Function.update_self]
      exact Function.update_self _ _ _
    · rw [hfile]
      exact (by decide : (0 : ℕ) ≠ pipeFlag)
    · rw [hfile]
  have hpos : k₁.setPos g 0 = k₁ := by
    have hself : (k₁.fileTable g).fdPos = 0 := by rw [hfile]
    rw [← hself, Kernel.setPos_self]
  have hprocess := hsound.process
  rw [← hrunner.process] at hprocess
  refine ⟨fd, g, a, hfd, hat, hpos.symm, Nat.zero_le _, hsound.setKernel hrunner.running hprocess, ?_,
    fun _ _ _ hb => hb⟩
  exact Memory.Took.refl _

/-- Closing the file. -/
theorem Loading.close {w₀ w : Ram} {k₁ : Kernel} {fd g a pos : ℕ} {pages : Finset ℕ}
    {segs : List Ram.Elf32Phdr} (hat : k₁.OpenAt fd g a)
    (h : Loading w₀ k₁ g (k₁.fileOf a) pages segs pos w) : ∃ k₂,
      (Ram.onKernel (sysClose (fd : ℤ))).outcome w = .ok (0, w.setKernel k₂) ∧
      Loads (k₁.fileOf a) pages segs w₀ (w.setKernel k₂) := by
  obtain ⟨k₂, hclose⟩ := (hat.setPos pos).outcome_sysClose
  rw [← h.kernel] at hclose
  have hsame := outcome_of_wp sysClose_sameTasks hclose
  have hprocess := h.loads.sound.process
  refine ⟨k₂, Ram.outcome_onKernel hclose, h.loads.sound.setKernel hsame.running ?_, h.loads.took,
    h.loads.bytes⟩
  rw [Kernel.cur, hsame.running, hsame.process]
  exact hprocess

/-- A file without a header that `load` accepts is turned down before anything is mapped or written. -/
theorem load_rejects {w : Ram} {k₁ : Kernel} {t : Transfer} {path : CString} {ret : ℤ}
    (hsound : w.memory.UserSound) (hopen : (sysOpen t path 0).outcome w.memory.kernel = .ok (ret, k₁))
    (hret : ret ≠ -1) : ∃ fd g a, ret = (fd : ℕ) ∧ k₁.OpenAt fd g a ∧
      (Readable k₁.disk (k₁.inodes a) → (k₁.fileOf a).size < 139 * sectorSize →
        ¬ (Ram.ehdrSize ≤ (k₁.fileOf a).size ∧ (k₁.fileOf a).ehdr.Accepted) →
        ∃ k₂, (Ram.load t path).outcome w = .ok (-1, w.setKernel k₂)) := by
  obtain ⟨fd, g, a, hfd, hat, h⟩ := Loading.start hsound hopen hret
  refine ⟨fd, g, a, hfd, hat, fun hread hsmall hbad => ?_⟩
  have hread' := h.readSome (t := t) hat hread hsmall (n := Ram.ehdrSize) (by decide)
  have hsome : 0 + (k₁.fileOf a).readLen 0 Ram.ehdrSize ≤ (k₁.fileOf a).size :=
    Contents.readLen_le (Nat.zero_le _)
  have h₁ := h.setPos hsome
  obtain ⟨k₂, hclose, -⟩ := h₁.close hat
  refine ⟨k₂, ?_⟩
  have hopened : (Ram.loadOpened t (fd : ℤ)).outcome (w.setKernel k₁) = .ok (-1, (w.setKernel k₁).setKernel
      (k₁.setPos g (0 + (k₁.fileOf a).readLen 0 Ram.ehdrSize))) := by
    rw [Ram.loadOpened, outcome_bind_ok hread']
    dsimp only
    by_cases hlong : Ram.ehdrSize ≤ (k₁.fileOf a).size
    · have hlen : (k₁.fileOf a).readLen 0 Ram.ehdrSize = Ram.ehdrSize := min_eq_left hlong
      have hall : (k₁.fileOf a).readRet 0 Ram.ehdrSize = Ram.ehdrSize := by
        unfold Ram.ehdrSize at hlong
        rw [Contents.readRet, if_neg (by omega), hlen]
      rw [hall, if_neg (not_not.mpr rfl), hlen, Contents.ehdrAt_copy, if_pos fun h => hbad ⟨hlong, h⟩]
      rfl
    · rw [if_pos]
      · rfl
      · unfold Contents.readRet Contents.readLen
        unfold Ram.ehdrSize at hlong ⊢
        split <;> omega
  rw [Ram.load, outcome_bind_ok (Ram.outcome_onKernel hopen), if_neg hret, hfd, outcome_bind_ok hopened,
    outcome_bind_ok hclose]
  rfl

/-! ## A small image -/

/-- An image with one segment of two bytes, an endless loop, at `0x8048000`. -/
def smallImage : List UInt8 :=
  [0x7f, 0x45, 0x4c, 0x46, 1, 1, 1, 0, 0, 0, 0, 0, 0, 0, 0, 0, 2, 0, 3, 0, 1, 0, 0, 0,
    0x00, 0x80, 0x04, 0x08, 52, 0, 0, 0, 0, 0, 0, 0, 0, 0, 0, 0, 52, 0, 32, 0, 1, 0, 0, 0, 0, 0, 0, 0] ++
  [1, 0, 0, 0, 84, 0, 0, 0, 0x00, 0x80, 0x04, 0x08, 0, 0, 0, 0, 2, 0, 0, 0, 2, 0, 0, 0,
    5, 0, 0, 0, 0, 16, 0, 0] ++ [0xeb, 0xfe]

/-- The small machine with these bytes in the file `/a`, which is already open. -/
def imageKernel (image : List UInt8) : Kernel :=
  { oneFile with
    disk := copy oneFile.disk (sectorSize * 1000) (fun i => image.getD i 0) 0 image.length
    inodes := Function.update oneFile.inodes 1
      { oneFile.inodes 1 with iSize := image.length, iSectors := fun i => if i = 0 then 1000 else 0 }
    tasks := fun p => { oneFile.tasks p with isProcess := true } }

/-- The kernel after the file is opened once more. -/
def imageOpened (image : List UInt8) : Kernel := after (sysOpen .repeated pathA 0) (imageKernel image)

/-- The memory at boot with this kernel. -/
def imageRam (image : List UInt8) : Ram :=
  ⟨{ Memory.bootMemory with kernel := imageKernel image }, fun _ _ => 0⟩

section Image

variable {image : List UInt8}

theorem imageRam_free (pf : PoolFlags) : Finset.range 3840 ⊆ (imageRam image).memory.freeFrames pf := by
  intro i hi
  cases pf with
  | kernel => exact Memory.mem_freeFrames.mpr ⟨Finset.mem_range.mp hi, Nat.zero_testBit _⟩
  | user => exact Memory.mem_freeFrames.mpr ⟨Finset.mem_range.mp hi, Nat.zero_testBit _⟩

theorem imageRam_sound : (imageRam image).memory.UserSound := by
  have hnone (v : ℕ) : (imageRam image).memory.mapping v = none := by
    rw [Memory.mapping, Memory.pte]
    split
    · rfl
    · rfl
  refine ⟨rfl, rfl, ⟨fun _ _ _ _ h => (by cases h), fun _ _ h => by cases h⟩,
    fun v _ w _ f hf => ?_, fun v _ y _ hf => ?_, ?_⟩
  · rw [hnone] at hf
    cases hf
  · rw [hnone] at hf
    cases hf
  · calc (imageRam image).memory.noTable.card ≤ (Finset.range Memory.userEntries).card :=
          Finset.card_le_card (Finset.filter_subset _ _)
      _ ≤ (Finset.range 3840).card := Finset.card_le_card (Finset.range_subset_range.mpr (by decide))
      _ ≤ _ := Finset.card_le_card (imageRam_free .kernel)

/-- Which inode the descriptor stands for. -/
theorem imageOpened_inode (hentry : (imageOpened image).cur.fdTable 4 = 4)
    (hinode : ((imageOpened image).fileTable 4).fdInode = some 1) {fd g a : ℕ} (hfd : (4 : ℤ) = fd)
    (hat : (imageOpened image).OpenAt fd g a) : a = 1 := by
  obtain rfl : fd = 4 := by omega
  obtain rfl : g = 4 := by
    have := hat.entry
    omega
  exact Option.some.inj (hat.inode.symm.trans hinode)

/-- The file can be read when it lies in one block. -/
theorem imageOpened_readable (hsize : ((imageOpened image).inodes 1).iSize ≤ sectorSize)
    (hblock : blockAt (imageOpened image).disk ((imageOpened image).inodes 1).iSectors 0 = 1000) :
    Readable (imageOpened image).disk ((imageOpened image).inodes 1) := by
  refine ⟨hsize.trans (by decide), fun i hi => ?_, fun h => absurd (h.trans hsize) (by decide)⟩
  unfold sectorSize at hi hsize
  obtain rfl : i = 0 := by omega
  rw [hblock]
  decide

end Image

/-- Without the first byte of the magic number the image is turned down. -/
theorem load_rejects_badMagic : ∃ k₂, (Ram.load .repeated pathA).outcome (imageRam (0 :: smallImage.tail)) =
    .ok (-1, (imageRam (0 :: smallImage.tail)).setKernel k₂) := by
  obtain ⟨fd, g, a, hfd, hat, hload⟩ := load_rejects imageRam_sound
    (show (sysOpen .repeated pathA 0).outcome (imageKernel (0 :: smallImage.tail)) =
      .ok (4, imageOpened (0 :: smallImage.tail)) from outcome_after (by decide +kernel)) (by decide)
  obtain rfl := imageOpened_inode (by decide +kernel) (by decide +kernel) hfd hat
  exact hload (imageOpened_readable (by decide +kernel) (by decide +kernel)) (by decide +kernel)
    (by decide +kernel)

end BochsOs
