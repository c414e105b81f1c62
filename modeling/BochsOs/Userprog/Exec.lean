import BochsOs.Fs.FileRead
import BochsOs.Kernel.PoolLocks
import BochsOs.Userprog.Lifetime

/-!
# Loading a program

`load` of `userprog/exec.c`: the file is opened, its header and its program headers are read one
after the other, and each loadable segment is read to its place as soon as its header is known.
The pages of a segment are taken where they are missing.

`Ram` adds the bytes in the frames to the memory.  A byte that a `sys_read` brings to an address
outside of the user range goes to the kernel, and a bit outside of the bitmap of pages is another
variable of the kernel: both end the run with `Fault.overrun`.  The bytes arrive when the read is
complete.  The locks of the pools and the messages of `load` are left out (`getAPage_locked`).
-/

namespace BochsOs

open ByteMemory Suspend Suspend.Prog

/-! ## The state -/

/-- The memory and what lies in its frames. -/
structure Ram where
  memory : Memory
  /-- The bytes of a frame. -/
  frames : ℕ → Bytes

/-- The user range. -/
def InUser (vaddr : ℕ) : Prop := userVaddrStart ≤ vaddr ∧ vaddr < Memory.kernelBase

instance (vaddr : ℕ) : Decidable (InUser vaddr) := inferInstanceAs (Decidable (_ ∧ _))

namespace Ram

/-- Code that does not touch the bytes. -/
def onMemory {α : Type} (x : Prog Memory α) : Prog Ram α :=
  x.focus Ram.memory fun m w => { w with memory := m }

/-- Code that touches neither the bytes nor the page tables. -/
def onKernel {α : Type} (x : Prog Kernel α) : Prog Ram α := onMemory (Memory.onKernel x)

variable (w : Ram)

/-- The byte at an address, if its page is present. -/
def byteAt (vaddr : ℕ) : Option UInt8 :=
  (w.memory.mapping vaddr).map fun frame => w.frames frame (vaddr % pgSize)

/-- Overwrite a byte of a frame. -/
def setByte (frame off : ℕ) (value : UInt8) : Ram :=
  { w with frames := Function.update w.frames frame (Function.update (w.frames frame) off value) }

open Memory

/-- Store a byte at an address of the process. -/
def storeByte (vaddr : ℕ) (value : UInt8) : Prog Ram Unit := do
  let w ← read
  if ¬ InUser vaddr then stop .overrun
  else
    match w.memory.mapping vaddr with
    | none => stop .undefined
    | some frame => write (w.setByte frame (vaddr % pgSize) value)

/-- The bytes of `src` from `done` on to `vaddr + done`.  The addresses do not wrap around, since the
kernel lies in between. -/
def storeBytes (vaddr : ℕ) (src : Bytes) : (left done : ℕ) → Prog Ram Unit
  | 0, _ => return ()
  | left + 1, done => do
      storeByte (vaddr + done) (src done)
      storeBytes vaddr src left (done + 1)

/-! ## Headers -/

/-- A little-endian 16-bit word. -/
def readU16 (b : Bytes) (a : ℕ) : ℕ := (b a).toNat + 256 * (b (a + 1)).toNat

/-- `struct Elf32_Ehdr`, less the fields that nothing reads. -/
structure Elf32Ehdr where
  eIdent : List UInt8
  eType : ℕ
  eMachine : ℕ
  eVersion : ℕ
  eEntry : ℕ
  ePhoff : ℕ
  ePhentsize : ℕ
  ePhnum : ℕ

/-- `sizeof(struct Elf32_Ehdr)`. -/
def ehdrSize : ℕ := 52

/-- The `struct Elf32_Ehdr` in a buffer. -/
def ehdrAt (b : Bytes) : Elf32Ehdr where
  eIdent := (List.range 16).map b
  eType := readU16 b 16
  eMachine := readU16 b 18
  eVersion := readU32 b 20
  eEntry := readU32 b 24
  ePhoff := readU32 b 28
  ePhentsize := readU16 b 42
  ePhnum := readU16 b 44

/-- `struct Elf32_Phdr`, less the fields that nothing reads. -/
structure Elf32Phdr where
  pType : ℕ
  pOffset : ℕ
  pVaddr : ℕ
  pFilesz : ℕ

/-- `sizeof(struct Elf32_Phdr)`. -/
def phdrSize : ℕ := 32

/-- The `struct Elf32_Phdr` in a buffer. -/
def phdrAt (b : Bytes) : Elf32Phdr where
  pType := readU32 b 0
  pOffset := readU32 b 4
  pVaddr := readU32 b 8
  pFilesz := readU32 b 16

/-- `ET_EXEC`. -/
def etExec : ℕ := 2

/-- `EM_386`. -/
def em386 : ℕ := 3

/-- `PT_LOAD`. -/
def ptLoad : ℕ := 1

/-- `"\177ELF\1\1\1"`. -/
def elfMagic : List UInt8 := [0x7f, 0x45, 0x4c, 0x46, 1, 1, 1]

/-- The test of the header in `load`. -/
structure Elf32Ehdr.Accepted (h : Elf32Ehdr) : Prop where
  magic : h.eIdent.take 7 = elfMagic
  type : h.eType = etExec
  machine : h.eMachine = em386
  version : h.eVersion = 1
  phnum : h.ePhnum ≤ 1024
  phentsize : h.ePhentsize = phdrSize

instance (h : Elf32Ehdr) : Decidable h.Accepted :=
  decidable_of_iff (h.eIdent.take 7 = elfMagic ∧ h.eType = etExec ∧ h.eMachine = em386 ∧
      h.eVersion = 1 ∧ h.ePhnum ≤ 1024 ∧ h.ePhentsize = phdrSize)
    ⟨fun ⟨a, b, c, d, e, f⟩ => ⟨a, b, c, d, e, f⟩, fun ⟨a, b, c, d, e, f⟩ => ⟨a, b, c, d, e, f⟩⟩

/-! ## Pages -/

/-- The bit of a page in the bitmap that `get_a_page` marks. -/
def bitIdx (pf : PoolFlags) (vaddr : ℕ) : ℕ :=
  match pf with
  | .kernel => Paging.kernelBit vaddr
  | .user => subU32 vaddr userVaddrStart / pgSize

/-- `get_a_page`, less the lock. -/
def getAPage (pf : PoolFlags) (vaddr : ℕ) : Prog Memory (Option ℕ) := do
  PoolLocks.markPage pf vaddr
  let m ← read
  if 8 * (m.vaddrBitmap pf).btmpBytesLen ≤ bitIdx pf vaddr then stop .overrun
  else
    match ← palloc pf with
    | none => return none
    | some frame =>
        pageTableAdd vaddr frame
        return some vaddr

/-- `occupy_pages` of `segment_load`. -/
def occupyPages (filesz vaddr : ℕ) : ℕ :=
  let sizeInFirstPage := pgSize - vaddr % pgSize
  if sizeInFirstPage < filesz then divRoundUp (filesz - sizeInFirstPage) pgSize + 1 else 1

/-- The loop of `segment_load` over the pages of a segment. -/
def takePages : (left vaddrPage : ℕ) → Prog Memory Bool
  | 0, _ => return true
  | left + 1, vaddrPage => do
      let m ← read
      -- `*pde & 1` and `*pte & 1`
      if (m.mapping vaddrPage).isSome then takePages left (addU32 vaddrPage pgSize)
      else
        match ← getAPage .user vaddrPage with
        | none => return false
        | some _ => takePages left (addU32 vaddrPage pgSize)

/-! ## The loader -/

/-- `segment_load`.  The results of `sys_lseek` and `sys_read` are not looked at. -/
def segmentLoad (t : Transfer) (fd : ℤ) (offset filesz vaddr : ℕ) : Prog Ram Bool := do
  let ok ← onMemory (takePages (occupyPages filesz vaddr) (vaddr / pgSize * pgSize))
  if !ok then return false
  else
    let _ ← onKernel (sysLseek fd (asInt32 offset) .set)
    let (got, buf) ← onKernel (sysRead t fd zeroBuf filesz)
    storeBytes vaddr buf got.toNat 0
    return true

/-- The loop of `load` over the program headers. -/
def loadPhdrs (t : Transfer) (fd : ℤ) (phentsize : ℕ) : (left phoff : ℕ) → Prog Ram Bool
  | 0, _ => return true
  | left + 1, phoff => do
      let _ ← onKernel (sysLseek fd (asInt32 phoff) .set)
      let (got, buf) ← onKernel (sysRead t fd zeroBuf phentsize)
      if got ≠ phentsize then return false
      else
        let phdr := phdrAt buf
        let ok ← if phdr.pType = ptLoad then
            segmentLoad t fd phdr.pOffset phdr.pFilesz phdr.pVaddr
          else pure true
        if !ok then return false else loadPhdrs t fd phentsize left (addU32 phoff phentsize)

/-- `load` between `sys_open` and `sys_close`. -/
def loadOpened (t : Transfer) (fd : ℤ) : Prog Ram ℤ := do
  let (got, buf) ← onKernel (sysRead t fd zeroBuf ehdrSize)
  if got ≠ ehdrSize then return -1
  else
    let ehdr := ehdrAt buf
    if ¬ ehdr.Accepted then return -1
    else
      let ok ← loadPhdrs t fd ehdr.ePhentsize ehdr.ePhnum ehdr.ePhoff
      if !ok then return -1 else return asInt32 ehdr.eEntry

/-- `load`. -/
def load (t : Transfer) (pathname : CString) : Prog Ram ℤ := do
  let fd ← onKernel (sysOpen t pathname 0)
  if fd = -1 then return -1
  else
    let ret ← loadOpened t fd
    let _ ← onKernel (sysClose fd)
    return ret

end Ram

/-! ## `get_a_page` with the lock -/

namespace PoolLocks

open Memory

variable {R : LockedMemory → LockedMemory → Prop} {w : LockedMemory} {pf : PoolFlags} {vaddr : ℕ}

theorem markPage_bytesLen (pf : PoolFlags) (vaddr : ℕ) (m : Memory) :
    (markPage pf vaddr).wp
      (fun _ m' => (m'.vaddrBitmap pf).btmpBytesLen = (m.vaddrBitmap pf).btmpBytesLen) m := by
  rw [markPage, wp_bind, wp_read]
  split
  · rw [wp_write]
    change (Function.update m.spaces m.kernel.running _ m.kernel.running).vaddrBitmap.btmpBytesLen = _
    rw [Function.update_self]
    exact btmpBytesLen_bitmapSet _ _ _
  · rw [wp_bind, wp_assert]
    intro _
    exact btmpBytesLen_bitmapSet _ _ _
  · trivial

/-- A lock that nobody waits for goes back, and the memory stays as it is. -/
theorem lockRelease_memory {Q : Unit → LockedMemory → Prop}
    (hheld : ∃ p, w.lock pf = ⟨some p, ⟨0, []⟩, 1⟩) (h : ∀ lock, Q () (w.setLock pf lock)) :
    (lockRelease pf).amid R Q w := by
  obtain ⟨p, hlock⟩ := hheld
  simp only [lockRelease, amid_bind, amid_read, amid_assert, hlock]
  intro _
  rw [if_neg (by omega)]
  simp only [amid_bind, amid_assert, amid_write, semaUp, amid_read, lock_setLock_self]
  intro _ _
  rw [setLock_setLock]
  exact h _

/-- Where nobody has the lock of the pool or waits for it, `get_a_page` does what it does without
the lock. -/
theorem getAPage_locked (hfree : w.lock pf = lockInit)
    (hbit : Ram.bitIdx pf vaddr < 8 * (w.memory.vaddrBitmap pf).btmpBytesLen) (rounds : ℕ)
    {Q : Option ℕ → Memory → Prop} (h : (Ram.getAPage pf vaddr).wp Q w.memory) :
    (PoolLocks.getAPage (rounds + 1) pf vaddr).amid R (fun page w' => Q page w'.memory) w := by
  have hheld : (acquired w pf).lock pf = ⟨some w.running, ⟨0, []⟩, 1⟩ := by
    rw [acquired, lock_setLock_self, hfree]
    rfl
  rw [Ram.getAPage, wp_bind] at h
  rw [PoolLocks.getAPage, amid_bind, lockAcquire_free hfree, amid_bind,
    amid_onMemory (markPage_steady _ _)]
  refine wp_mono (wp_and (markPage_bytesLen pf vaddr w.memory) h) ?_
  rintro - m ⟨hlen, h⟩
  rw [wp_bind, wp_read, if_neg (by rw [hlen]; omega), wp_bind] at h
  rw [amid_bind, amid_onMemory (palloc_steady _)]
  refine wp_mono h fun frame m₁ h => ?_
  cases frame with
  | none => exact h
  | some frame =>
      rw [wp_bind] at h
      dsimp only
      rw [amid_bind, amid_onMemory (pageTableAdd_steady _ _)]
      refine wp_mono h fun _ m₂ h => ?_
      rw [amid_bind]
      exact lockRelease_memory ⟨w.running, hheld⟩ fun _ => h

end PoolLocks

end BochsOs
