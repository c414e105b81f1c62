import BochsOs.Kernel.State

/-!
# Sector transfers

`device/ide.c`.  `_ide_read` and `_ide_write` move one sector: they take the
channel lock, start the command, sleep until the disk interrupt and copy 512
bytes, so they can be switched out before and after the transfer.  `ide_read`
and `ide_write` call them once for each sector of the buffer.

As written, both loops pass `lba` itself in every round, so all rounds address
the same sector (`Transfer.repeated`).  Their callers are written for
`Transfer.consecutive`, where round `i` addresses sector `lba + i`.  The two
agree on single sectors (`Transfer.sector_zero`).

`ideWrite_roundTrip_iff` says exactly when a write and a following read of `n`
sectors do what the callers expect.
-/

namespace BochsOs

open ByteMemory Suspend Suspend.Prog

/-- Which sector round `i` of a transfer starting at `lba` addresses. -/
inductive Transfer where
  /-- `ide.c` as it is: every round addresses `lba`. -/
  | repeated
  /-- What the callers are written for. -/
  | consecutive
  deriving DecidableEq, Repr

/-- The sector of round `i`. -/
def Transfer.sector : Transfer → ℕ → ℕ → ℕ
  | repeated, lba, _ => lba
  | consecutive, lba, i => lba + i

@[simp] theorem Transfer.sector_zero (t : Transfer) (lba : ℕ) : t.sector lba 0 = lba := by
  cases t <;> rfl

/-- `max_lba`: the last sector of the 80 MB disk. -/
def maxLba : ℕ := 80 * 1024 * 1024 / 512 - 1

/-- `_ide_read`: sector `lba` to `buf + off`. -/
def ideReadSector (lba : ℕ) (buf : Bytes) (off : ℕ) : Prog Kernel Bytes := do
  assert (lba ≤ maxLba)
  block
  let k ← read
  block
  return copy buf off k.disk (sectorSize * lba) sectorSize

/-- `_ide_write`: the 512 bytes at `buf + off` to sector `lba`. -/
def ideWriteSector (lba : ℕ) (buf : Bytes) (off : ℕ) : Prog Kernel Unit := do
  assert (lba ≤ maxLba)
  block
  modify fun k => { k with disk := copy k.disk (sectorSize * lba) buf off sectorSize }
  block

/-- The loop of `ide_read` from round `i` on. -/
def ideReadLoop (t : Transfer) (lba : ℕ) : (left i : ℕ) → Bytes → Prog Kernel Bytes
  | 0, _, buf => return buf
  | left + 1, i, buf => do
      let buf ← ideReadSector (t.sector lba i) buf (sectorSize * i)
      ideReadLoop t lba left (i + 1) buf

/-- `ide_read`: the buffer after reading `secCnt` sectors into it. -/
def ideRead (t : Transfer) (lba : ℕ) (buf : Bytes) (secCnt : ℕ) : Prog Kernel Bytes :=
  ideReadLoop t lba secCnt 0 buf

/-- The loop of `ide_write` from round `i` on. -/
def ideWriteLoop (t : Transfer) (lba : ℕ) (buf : Bytes) : (left i : ℕ) → Prog Kernel Unit
  | 0, _ => return ()
  | left + 1, i => do
      ideWriteSector (t.sector lba i) buf (sectorSize * i)
      ideWriteLoop t lba buf left (i + 1)

/-- `ide_write`. -/
def ideWrite (t : Transfer) (lba : ℕ) (buf : Bytes) (secCnt : ℕ) : Prog Kernel Unit :=
  ideWriteLoop t lba buf secCnt 0

/-! ## Single sectors -/

@[simp] theorem wp_ideReadSector {lba off : ℕ} {buf : Bytes} {Q : Bytes → Kernel → Prop}
    {k : Kernel} :
    (ideReadSector lba buf off).wp Q k ↔
      (lba ≤ maxLba → Q (copy buf off k.disk (sectorSize * lba) sectorSize) k) := by
  simp [ideReadSector]

@[simp] theorem wp_ideWriteSector {lba off : ℕ} {buf : Bytes} {Q : Unit → Kernel → Prop}
    {k : Kernel} :
    (ideWriteSector lba buf off).wp Q k ↔
      (lba ≤ maxLba →
        Q () { k with disk := copy k.disk (sectorSize * lba) buf off sectorSize }) := by
  simp [ideWriteSector]

/-- A one-sector `ide_read`, for either kind of transfer. -/
@[simp] theorem wp_ideRead_one {t : Transfer} {lba : ℕ} {buf : Bytes}
    {Q : Bytes → Kernel → Prop} {k : Kernel} :
    (ideRead t lba buf 1).wp Q k ↔
      (lba ≤ maxLba → Q (copy buf 0 k.disk (sectorSize * lba) sectorSize) k) := by
  simp [ideRead, ideReadLoop]

/-- A one-sector `ide_write`, for either kind of transfer. -/
@[simp] theorem wp_ideWrite_one {t : Transfer} {lba : ℕ} {buf : Bytes}
    {Q : Unit → Kernel → Prop} {k : Kernel} :
    (ideWrite t lba buf 1).wp Q k ↔
      (lba ≤ maxLba →
        Q () { k with disk := copy k.disk (sectorSize * lba) buf 0 sectorSize }) := by
  simp [ideWrite, ideWriteLoop]

/-! ## Reads into a cleared buffer -/

/-- The sector `lba` as `ide_read` brings it into a cleared buffer. -/
def sectorOf (disk : Bytes) (lba : ℕ) : Bytes := copy zeroBuf 0 disk (sectorSize * lba) sectorSize

theorem sectorOf_apply {disk : Bytes} {lba a : ℕ} (ha : a < sectorSize) :
    sectorOf disk lba a = disk (sectorSize * lba + a) := by
  have h : sectorOf disk lba (0 + a) = disk (sectorSize * lba + a) := copy_add ha
  rwa [Nat.zero_add] at h

/-- The buffer after the rounds `first`, …, `first + n - 1` of an `ide_read`. -/
def Transfer.sectors (t : Transfer) (disk : Bytes) (lba : ℕ) (buf : Bytes) (first n : ℕ) : Bytes :=
  fun a =>
    if sectorSize * first ≤ a ∧ a < sectorSize * (first + n) then
      disk (sectorSize * t.sector lba (a / sectorSize) + a % sectorSize)
    else buf a

/-- One more round in front. -/
theorem Transfer.sectors_copy (t : Transfer) (disk : Bytes) (lba : ℕ) (buf : Bytes) (first n : ℕ) :
    t.sectors disk lba (copy buf (sectorSize * first) disk (sectorSize * t.sector lba first)
      sectorSize) (first + 1) n = t.sectors disk lba buf first (n + 1) := by
  funext a
  unfold Transfer.sectors sectorSize
  by_cases hfirst : 512 * first ≤ a ∧ a < 512 * first + 512
  · rw [if_neg (by omega), if_pos (by omega), copy_inside hfirst.1 hfirst.2]
    have hdiv : a / 512 = first := by omega
    rw [hdiv, show a - 512 * first = a % 512 by omega]
  · rw [copy_outside (by omega)]
    by_cases hrest : 512 * (first + 1) ≤ a ∧ a < 512 * (first + 1 + n)
    · rw [if_pos hrest, if_pos (by omega)]
    · rw [if_neg hrest, if_neg (by omega)]

theorem ensures_ideReadLoop {t : Transfer} {e : Env} {lba : ℕ} {buf : Bytes} {left first : ℕ}
    {Q : Bytes → Kernel → Prop} {k : Kernel}
    (hlba : ∀ i, first ≤ i → i < first + left → t.sector lba i ≤ maxLba) :
    (ideReadLoop t lba left first buf).ensures e Q k ↔
      Q (t.sectors k.disk lba buf first left) k := by
  induction left generalizing first buf with
  | zero =>
      have hsame : t.sectors k.disk lba buf first 0 = buf := by
        funext a
        exact if_neg (by rw [Nat.add_zero]; omega)
      rw [hsame]
      exact Iff.rfl
  | succ left ih =>
      have hfirst := hlba first le_rfl (by omega)
      rw [ideReadLoop, ensures_bind, ideReadSector, ensures_bind,
        ensures_assert (decide_eq_true hfirst)]
      simp only [ensures_bind, ensures_block, ensures_read, ensures_pure]
      rw [ih fun i hi hi' => hlba i (by omega) (by omega), t.sectors_copy]

/-- An `ide_read` of sectors that lie on the disk. -/
theorem ensures_ideRead {t : Transfer} {e : Env} {lba n : ℕ} {Q : Bytes → Kernel → Prop}
    {k : Kernel} (hlba : ∀ i < n, t.sector lba i ≤ maxLba) :
    (ideRead t lba zeroBuf n).ensures e Q k ↔ Q (t.sectors k.disk lba zeroBuf 0 n) k :=
  ensures_ideReadLoop fun i _ hi => hlba i (by omega)

theorem Transfer.sectors_one (t : Transfer) (disk : Bytes) (lba : ℕ) :
    t.sectors disk lba zeroBuf 0 1 = sectorOf disk lba := by
  have h := t.sectors_copy disk lba zeroBuf 0 0
  rw [Nat.mul_zero, t.sector_zero] at h
  rw [← h]
  funext a
  exact if_neg (by omega)

/-- An `ide_read` of one sector. -/
theorem ensures_ideRead_one {t : Transfer} {e : Env} {lba : ℕ} {Q : Bytes → Kernel → Prop}
    {k : Kernel} (hlba : lba ≤ maxLba) :
    (ideRead t lba zeroBuf 1).ensures e Q k ↔ Q (sectorOf k.disk lba) k := by
  rw [ensures_ideRead fun i hi => by rwa [show i = 0 by omega, t.sector_zero], t.sectors_one]

/-- The rounds of an `ide_write` to sectors of `S` change no others. -/
theorem ensures_ideWriteLoop_area {t : Transfer} {e : Env} {lba left i : ℕ} {buf : Bytes} {S : ℕ → Prop}
    {Q : Unit → Kernel → Prop} {k : Kernel}
    (hlba : ∀ j, i ≤ j → j < i + left → S (t.sector lba j) ∧ t.sector lba j ≤ maxLba)
    (hQ : ∀ disk, (∀ l, ¬ S l → sectorOf disk l = sectorOf k.disk l) → Q () { k with disk := disk }) :
    (ideWriteLoop t lba buf left i).ensures e Q k := by
  induction left generalizing i k with
  | zero => exact hQ k.disk fun _ _ => rfl
  | succ left ih =>
      have hfirst := hlba i le_rfl (by omega)
      rw [ideWriteLoop, ensures_bind, ideWriteSector]
      simp only [ensures_bind]
      rw [ensures_assert (decide_eq_true hfirst.2)]
      simp only [ensures_block, ensures_modify]
      refine ih (fun j hj hj' => hlba j (by omega) (by omega)) fun disk hdisk => ?_
      refine hQ disk fun l hl => (hdisk l hl).trans ?_
      have hne : l ≠ t.sector lba i := fun heq => hl (heq ▸ hfirst.1)
      refine copy_congr fun a ha => copy_outside ?_
      unfold sectorSize at *
      omega

/-! ## Transfers of several sectors, as `ide.c` makes them -/

/-- The rounds of `ide_write` all land on sector `lba`, so only the last one is
left on the disk. -/
theorem wp_ideWriteLoop_repeated {lba : ℕ} {buf : Bytes} {left i : ℕ}
    {Q : Unit → Kernel → Prop} {k : Kernel} :
    (ideWriteLoop .repeated lba buf (left + 1) i).wp Q k ↔
      (lba ≤ maxLba → Q () { k with
        disk := copy k.disk (sectorSize * lba) buf (sectorSize * (i + left)) sectorSize }) := by
  induction left generalizing i k with
  | zero => simp [ideWriteLoop, Transfer.sector]
  | succ left ih =>
      rw [ideWriteLoop]
      simp only [wp_bind, wp_ideWriteSector, Transfer.sector, ih, copy_copy_same]
      rw [show i + 1 + left = i + (left + 1) by omega]
      exact ⟨fun h hlba => h hlba hlba, fun h hlba _ => h hlba⟩

/-- The buffer after reading sector `lba` into each of the chunks `first`, …,
`last - 1` of `buf`. -/
def repeatedSector (disk : Bytes) (lba : ℕ) (buf : Bytes) (first last : ℕ) : Bytes :=
  fun a => if sectorSize * first ≤ a ∧ a < sectorSize * last
    then disk (sectorSize * lba + a % sectorSize) else buf a

theorem repeatedSector_empty (disk : Bytes) (lba : ℕ) (buf : Bytes) (first : ℕ) :
    repeatedSector disk lba buf first first = buf := by
  funext a
  exact if_neg (by omega)

/-- One more chunk in front. -/
theorem repeatedSector_copy (disk : Bytes) (lba : ℕ) (buf : Bytes) (first count : ℕ) :
    repeatedSector disk lba (copy buf (sectorSize * first) disk (sectorSize * lba) sectorSize)
        (first + 1) (first + 1 + count) =
      repeatedSector disk lba buf first (first + 1 + count) := by
  funext a
  unfold repeatedSector sectorSize
  by_cases hfirst : 512 * first ≤ a ∧ a < 512 * first + 512
  · rw [if_neg (by omega), if_pos (by omega), copy_inside hfirst.1 hfirst.2,
      show a - 512 * first = a % 512 by omega]
  · rw [copy_outside (by omega)]
    by_cases hrest : 512 * (first + 1) ≤ a ∧ a < 512 * (first + 1 + count)
    · rw [if_pos hrest, if_pos (by omega)]
    · rw [if_neg hrest, if_neg (by omega)]

theorem wp_ideReadLoop_repeated {lba : ℕ} {buf : Bytes} {left i : ℕ}
    {Q : Bytes → Kernel → Prop} {k : Kernel} :
    (ideReadLoop .repeated lba (left + 1) i buf).wp Q k ↔
      (lba ≤ maxLba → Q (repeatedSector k.disk lba buf i (i + 1 + left)) k) := by
  induction left generalizing i buf with
  | zero =>
      rw [← repeatedSector_copy, Nat.add_zero, repeatedSector_empty]
      simp [ideReadLoop, Transfer.sector]
  | succ left ih =>
      rw [ideReadLoop, ← repeatedSector_copy]
      simp only [wp_bind, wp_ideReadSector, Transfer.sector, ih]
      rw [show i + 1 + 1 + left = i + 1 + (left + 1) by omega]
      exact ⟨fun h hlba => h hlba hlba, fun h hlba _ => h hlba⟩

/-! ## Transfers of several sectors, as the callers expect them -/

theorem wp_ideWriteLoop_consecutive {lba : ℕ} {buf : Bytes} {left i : ℕ}
    {Q : Unit → Kernel → Prop} {k : Kernel} :
    (ideWriteLoop .consecutive lba buf (left + 1) i).wp Q k ↔
      (lba + i + left ≤ maxLba → Q () { k with
        disk := copy k.disk (sectorSize * (lba + i)) buf (sectorSize * i)
          (sectorSize * (left + 1)) }) := by
  induction left generalizing i k with
  | zero => simp [ideWriteLoop, Transfer.sector]
  | succ left ih =>
      rw [ideWriteLoop]
      simp only [wp_bind, wp_ideWriteSector, Transfer.sector, ih]
      have hdisk : ∀ disk : Bytes,
          copy (copy disk (sectorSize * (lba + i)) buf (sectorSize * i) sectorSize)
            (sectorSize * (lba + (i + 1))) buf (sectorSize * (i + 1)) (sectorSize * (left + 1)) =
          copy disk (sectorSize * (lba + i)) buf (sectorSize * i) (sectorSize * (left + 1 + 1)) := by
        intro disk
        rw [show sectorSize * (lba + (i + 1)) = sectorSize * (lba + i) + sectorSize by ring,
          show sectorSize * (i + 1) = sectorSize * i + sectorSize by ring, copy_copy_append,
          show sectorSize + sectorSize * (left + 1) = sectorSize * (left + 1 + 1) by ring]
      rw [hdisk]
      exact ⟨fun h hlba => h (by omega) (by omega), fun h _ hlba => h (by omega)⟩

/-- An `ide_write` of consecutive sectors. -/
theorem wp_ideWrite_consecutive {lba : ℕ} {buf : Bytes} {n : ℕ} (hn : 0 < n)
    {Q : Unit → Kernel → Prop} {k : Kernel} :
    (ideWrite .consecutive lba buf n).wp Q k ↔
      (lba + n ≤ maxLba + 1 → Q () { k with
        disk := copy k.disk (sectorSize * lba) buf 0 (sectorSize * n) }) := by
  obtain ⟨m, rfl⟩ : ∃ m, n = m + 1 := ⟨n - 1, by omega⟩
  rw [ideWrite, wp_ideWriteLoop_consecutive]
  simp only [Nat.add_zero, Nat.mul_zero]
  exact ⟨fun h hlba => h (by omega), fun h hlba => h (by omega)⟩

theorem wp_ideReadLoop_consecutive {lba : ℕ} {buf : Bytes} {left i : ℕ}
    {Q : Bytes → Kernel → Prop} {k : Kernel} :
    (ideReadLoop .consecutive lba (left + 1) i buf).wp Q k ↔
      (lba + i + left ≤ maxLba →
        Q (copy buf (sectorSize * i) k.disk (sectorSize * (lba + i)) (sectorSize * (left + 1))) k) := by
  induction left generalizing i buf with
  | zero => simp [ideReadLoop, Transfer.sector]
  | succ left ih =>
      rw [ideReadLoop]
      simp only [wp_bind, wp_ideReadSector, Transfer.sector, ih]
      rw [show sectorSize * (lba + (i + 1)) = sectorSize * (lba + i) + sectorSize by ring,
        show sectorSize * (i + 1) = sectorSize * i + sectorSize by ring, copy_copy_append,
        show sectorSize + sectorSize * (left + 1) = sectorSize * (left + 1 + 1) by ring]
      exact ⟨fun h hlba => h (by omega) (by omega), fun h _ hlba => h (by omega)⟩

/-- An `ide_read` of consecutive sectors. -/
theorem wp_ideRead_consecutive {lba : ℕ} {buf : Bytes} {n : ℕ} (hn : 0 < n)
    {Q : Bytes → Kernel → Prop} {k : Kernel} :
    (ideRead .consecutive lba buf n).wp Q k ↔
      (lba + n ≤ maxLba + 1 → Q (copy buf 0 k.disk (sectorSize * lba) (sectorSize * n)) k) := by
  obtain ⟨m, rfl⟩ : ∃ m, n = m + 1 := ⟨n - 1, by omega⟩
  rw [ideRead, wp_ideReadLoop_consecutive]
  simp only [Nat.add_zero, Nat.mul_zero]
  exact ⟨fun h hlba => h (by omega), fun h hlba => h (by omega)⟩

/-! ## The round trip -/

/-- What the callers of `ide_write` and `ide_read` rely on: writing `n` sectors
changes exactly the sectors `lba`, …, `lba + n - 1`, sector `lba + i` receives
the `i`-th 512 bytes of `buf`, and reading them back yields those bytes. -/
def WriteReadRoundTrip (t : Transfer) (k : Kernel) (lba n : ℕ) (buf buf2 : Bytes) : Prop :=
  ∃ k', Returns (ideWrite t lba buf n) k () k' ∧
    (∀ a, a < sectorSize * lba ∨ sectorSize * (lba + n) ≤ a → k'.disk a = k.disk a) ∧
    (∀ i < n, ∀ j < sectorSize,
      k'.disk (sectorSize * (lba + i) + j) = buf (sectorSize * i + j)) ∧
    ∃ buf', Returns (ideRead t lba buf2 n) k' buf' k' ∧
      ∀ a < sectorSize * n, buf' a = buf a

/-- With at least two sectors everything is written to sector `lba`, so the
round trip works only if nothing had to be moved in the first place: all 512-byte
chunks of the buffer are equal and the further sectors already hold that chunk. -/
def NothingToMove (k : Kernel) (lba n : ℕ) (buf : Bytes) : Prop :=
  ∀ i, 0 < i → i < n → ∀ j < sectorSize,
    buf (sectorSize * i + j) = buf j ∧
      k.disk (sectorSize * (lba + i) + j) = buf (sectorSize * i + j)

theorem writeReadRoundTrip_zero (t : Transfer) (k : Kernel) (lba : ℕ) (buf buf2 : Bytes) :
    WriteReadRoundTrip t k lba 0 buf buf2 :=
  ⟨k, ⟨rfl, rfl⟩, fun _ _ => rfl, fun i hi => absurd hi (Nat.not_lt_zero i),
    buf2, ⟨rfl, rfl⟩, fun a ha => by omega⟩

/-- What is left of the round trip once the writes and reads are evaluated: the
disk holds the last chunk of the buffer in sector `lba`, and every chunk read
back is that one. -/
theorem writeReadRoundTrip_succ_iff (k : Kernel) (lba n : ℕ) (buf buf2 : Bytes)
    (hlba : lba ≤ maxLba) :
    WriteReadRoundTrip .repeated k lba (n + 1) buf buf2 ↔
      (∀ i < n + 1, ∀ j < sectorSize,
        copy k.disk (sectorSize * lba) buf (sectorSize * n) sectorSize
          (sectorSize * (lba + i) + j) = buf (sectorSize * i + j)) ∧
      ∀ a < sectorSize * (n + 1), buf (sectorSize * n + a % sectorSize) = buf a := by
  have hwrite : ∀ k', Returns (ideWrite .repeated lba buf (n + 1)) k () k' ↔
      k' = { k with disk := copy k.disk (sectorSize * lba) buf (sectorSize * n) sectorSize } := by
    intro k'
    have h := returns_iff_of_wp (x := ideWrite .repeated lba buf (n + 1)) (s := k)
      (fun _ => wp_ideWriteLoop_repeated) (b := ()) (u := k')
    simpa [hlba] using h
  have hread : ∀ (k' : Kernel) buf', Returns (ideRead .repeated lba buf2 (n + 1)) k' buf' k' ↔
      buf' = repeatedSector k'.disk lba buf2 0 (n + 1) := by
    intro k' buf'
    have h := returns_iff_of_wp (x := ideRead .repeated lba buf2 (n + 1)) (s := k')
      (fun _ => wp_ideReadLoop_repeated) (b := buf') (u := k')
    simpa [hlba, Nat.add_comm 1 n] using h
  -- byte `a` read back is byte `a % 512` of the chunk written last
  have hback : ∀ a < sectorSize * (n + 1),
      repeatedSector (copy k.disk (sectorSize * lba) buf (sectorSize * n) sectorSize) lba buf2
        0 (n + 1) a = buf (sectorSize * n + a % sectorSize) := by
    intro a ha
    rw [repeatedSector, if_pos (by omega), copy_add (Nat.mod_lt _ (by decide))]
  unfold WriteReadRoundTrip
  simp only [hwrite, hread, exists_eq_left]
  constructor
  · rintro ⟨-, hsectors, hbuf⟩
    exact ⟨hsectors, fun a ha => by rw [← hback a ha, hbuf a ha]⟩
  · rintro ⟨hsectors, hbuf⟩
    refine ⟨fun a ha => copy_outside ?_, hsectors, fun a ha => by rw [hback a ha, hbuf a ha]⟩
    unfold sectorSize at ha ⊢
    omega

/-- A transfer of `ide.c` does what its callers rely on exactly when it is of at
most one sector, or nothing had to be moved. -/
theorem ideWrite_roundTrip_iff (k : Kernel) (lba n : ℕ) (buf buf2 : Bytes)
    (hlast : lba + n ≤ maxLba + 1) :
    WriteReadRoundTrip .repeated k lba n buf buf2 ↔ n ≤ 1 ∨ NothingToMove k lba n buf := by
  cases n with
  | zero => simp [writeReadRoundTrip_zero]
  | succ n =>
      rw [writeReadRoundTrip_succ_iff k lba n buf buf2 (by omega)]
      constructor
      · rintro ⟨hsectors, hbuf⟩
        refine or_iff_not_imp_left.mpr fun hn i hi hin j hj => ?_
        have hchunk : ∀ i < n + 1, buf (sectorSize * n + j) = buf (sectorSize * i + j) := by
          intro i hi
          have h := hbuf (sectorSize * i + j) (by unfold sectorSize at hj ⊢; omega)
          rwa [Nat.mul_add_mod, Nat.mod_eq_of_lt hj] at h
        refine ⟨by rw [← hchunk i hin, hchunk 0 (by omega)]; simp, ?_⟩
        have h := hsectors i hin j hj
        rwa [copy_outside (by unfold sectorSize; omega)] at h
      · intro hcond
        have hsame : ∀ i < n + 1, ∀ j < sectorSize, buf (sectorSize * i + j) = buf j := by
          intro i hi j hj
          rcases Nat.eq_zero_or_pos i with rfl | hpos
          · simp
          · rcases hcond with hn | hmove
            · omega
            · exact (hmove i hpos hi j hj).1
        refine ⟨fun i hi j hj => ?_, fun a ha => ?_⟩
        · rcases Nat.eq_zero_or_pos i with rfl | hpos
          · rw [Nat.add_zero, copy_add hj, hsame n (by omega) j hj, hsame 0 (by omega) j hj]
          · rcases hcond with hn | hmove
            · omega
            · rw [copy_outside (by unfold sectorSize; omega), (hmove i hpos hi j hj).2]
        · have hlt : a / sectorSize < n + 1 := Nat.div_lt_of_lt_mul ha
          have hmod : a % sectorSize < sectorSize := Nat.mod_lt _ (by decide)
          conv_rhs => rw [← Nat.div_add_mod a sectorSize]
          rw [hsame n (by omega) _ hmod, hsame _ hlt _ hmod]

theorem ideWrite_roundTrip_one_sector :
    10 + 1 ≤ maxLba + 1 ∧ WriteReadRoundTrip .repeated default 10 1 zeroBuf zeroBuf :=
  ⟨by decide, (ideWrite_roundTrip_iff default 10 1 zeroBuf zeroBuf (by decide)).mpr (Or.inl le_rfl)⟩

/-- Two sectors, of zeros and of ones: the second one overwrites the first. -/
theorem ideWrite_two_sectors_broken :
    ¬ WriteReadRoundTrip .repeated default 10 2
      (fun a => if a < sectorSize then 0 else 1) zeroBuf := by
  rw [writeReadRoundTrip_succ_iff _ _ _ _ _ (by decide)]
  rintro ⟨-, hbuf⟩
  exact absurd (hbuf 0 (by decide)) (by decide)

end BochsOs
