import BochsOs.Library.Bytes

/-!
# Bitmaps

`lib/kernel/bitmap.c`.  A bitmap is a byte array; bit `i` is bit `i % 8` of byte
`i / 8`, and a set bit means "in use".  `Bitmap.bit` is the reading of a bitmap
that every other file reasons with: `bitmapSet` changes one bit of it
(`bit_bitmapSet`), and a scan for a single bit returns a clear bit
(`bit_of_bitmapScan_one`).
-/

namespace BochsOs

open ByteMemory

/-- `struct bitmap`. -/
structure Bitmap where
  btmpBytesLen : ℕ
  bits : Bytes
  deriving Inhabited

/-- Bit `i`: in use or not. -/
def Bitmap.bit (btmp : Bitmap) (i : ℕ) : Bool :=
  (btmp.bits (i / 8)).toBitVec.getLsbD (i % 8)

/-- `bitmap_init`: no bit is in use. -/
def bitmapInit (btmp : Bitmap) : Bitmap :=
  { btmp with bits := fill btmp.bits 0 btmp.btmpBytesLen 0 }

/-- `BITMAP_MASK << bit_odd`, cut to a byte. -/
def bitMask (bitOdd : ℕ) : UInt8 := ⟨1#8 <<< bitOdd⟩

/-- `bitmap_scan_test`. -/
def bitmapScanTest (btmp : Bitmap) (bitIdx : ℕ) : Bool :=
  btmp.bits (bitIdx / 8) &&& bitMask (bitIdx % 8) ≠ 0

/-- `bitmap_set`; the callers pass `0` or `1`, so its `ASSERT` is the type of
`value`. -/
def bitmapSet (btmp : Bitmap) (bitIdx : ℕ) (value : Bool) : Bitmap :=
  let byteIdx := bitIdx / 8
  let mask := bitMask (bitIdx % 8)
  let byte := if value then btmp.bits byteIdx ||| mask else btmp.bits byteIdx &&& ~~~mask
  { btmp with bits := Function.update btmp.bits byteIdx byte }

/-- The first loop of `bitmap_scan`: the first byte from `idxByte` on that is not
full, or `btmp_bytes_len`.  `left` is the number of bytes not yet looked at. -/
def scanByte (bits : Bytes) : (left idxByte : ℕ) → ℕ
  | 0, idxByte => idxByte
  | left + 1, idxByte => if bits idxByte = 0xff then scanByte bits left (idxByte + 1) else idxByte

/-- The second loop of `bitmap_scan`: the first clear bit of a byte that is not
full. -/
def scanBit (byte : UInt8) : (left idxBit : ℕ) → ℕ
  | 0, idxBit => idxBit
  | left + 1, idxBit => if bitMask idxBit &&& byte ≠ 0 then scanBit byte left (idxBit + 1) else idxBit

/-- The last loop of `bitmap_scan`, which looks for `cnt` clear bits in a row.
`count` of them end just before `nextBit`. -/
def scanRun (btmp : Bitmap) (cnt : ℕ) : (bitLeft nextBit count : ℕ) → Option ℕ
  | 0, _, _ => none
  | bitLeft + 1, nextBit, count =>
      let count := if bitmapScanTest btmp nextBit then 0 else count + 1
      if count = cnt then some (nextBit + 1 - cnt) else scanRun btmp cnt bitLeft (nextBit + 1) count

/-- `bitmap_scan`; `none` is the result `-1`. -/
def bitmapScan (btmp : Bitmap) (cnt : ℕ) : Option ℕ :=
  let idxByte := scanByte btmp.bits btmp.btmpBytesLen 0
  if idxByte = btmp.btmpBytesLen then none
  else
    let bitIdxStart := idxByte * 8 + scanBit (btmp.bits idxByte) 8 0
    if cnt = 1 then some bitIdxStart
    else scanRun btmp cnt (btmp.btmpBytesLen * 8 - bitIdxStart) (bitIdxStart + 1) 1

/-! ## One bit at a time -/

theorem getLsbD_bitMask (i j : ℕ) :
    (bitMask i).toBitVec.getLsbD j = (decide (j < 8) && decide (j = i)) := by
  simp only [bitMask, BitVec.getLsbD_shiftLeft, BitVec.getLsbD_one]
  by_cases hj : j < 8 <;> by_cases hij : j = i <;> simp [hj, hij]
  omega

theorem bit_bitmapSet (btmp : Bitmap) (i j : ℕ) (value : Bool) :
    (bitmapSet btmp i value).bit j = if j = i then value else btmp.bit j := by
  simp only [Bitmap.bit, bitmapSet]
  by_cases hbyte : j / 8 = i / 8
  · rw [hbyte, Function.update_self]
    have hj : j % 8 < 8 := Nat.mod_lt _ (by omega)
    have heq : j % 8 = i % 8 ↔ j = i := by omega
    cases value with
    | false =>
        simp only [Bool.false_eq_true, if_false, UInt8.toBitVec_and, UInt8.toBitVec_not,
          BitVec.getLsbD_and, BitVec.getLsbD_not, getLsbD_bitMask, hj, heq, decide_true,
          Bool.true_and]
        by_cases hij : j = i <;> simp [hij]
    | true =>
        simp only [if_true, UInt8.toBitVec_or, BitVec.getLsbD_or, getLsbD_bitMask, hj, heq,
          decide_true, Bool.true_and]
        by_cases hij : j = i <;> simp [hij]
  · rw [Function.update_of_ne hbyte, if_neg (by omega)]

@[simp] theorem btmpBytesLen_bitmapSet (btmp : Bitmap) (i : ℕ) (value : Bool) :
    (bitmapSet btmp i value).btmpBytesLen = btmp.btmpBytesLen := rfl

theorem and_bitMask_ne_zero (byte : UInt8) {i : ℕ} (hi : i < 8) :
    bitMask i &&& byte ≠ 0 ↔ byte.toBitVec.getLsbD i = true := by
  rw [← UInt8.toBitVec_inj.ne, UInt8.toBitVec_and]
  constructor
  · intro hne
    by_contra hclear
    apply hne
    apply BitVec.eq_of_getLsbD_eq
    intro j hj
    simp only [BitVec.getLsbD_and, getLsbD_bitMask, UInt8.toBitVec_ofNat, BitVec.getLsbD_zero]
    by_cases hij : j = i
    · subst hij
      simp only [Bool.not_eq_true] at hclear
      rw [hclear, Bool.and_false]
    · simp [hij]
  · intro hset heq
    have hbit := congrArg (fun v => v.getLsbD i) heq
    simp only [BitVec.getLsbD_and, getLsbD_bitMask, hi, hset, decide_true, Bool.and_true] at hbit
    simp at hbit

/-! ## Scanning for one clear bit -/

theorem scanByte_spec (bits : Bytes) (left idxByte : ℕ) :
    idxByte ≤ scanByte bits left idxByte ∧ scanByte bits left idxByte ≤ idxByte + left ∧
      (scanByte bits left idxByte < idxByte + left → bits (scanByte bits left idxByte) ≠ 0xff) := by
  induction left generalizing idxByte with
  | zero => simp [scanByte]
  | succ left ih =>
      simp only [scanByte]
      split
      · obtain ⟨hlow, hhigh, hfree⟩ := ih (idxByte + 1)
        exact ⟨by omega, by omega, fun h => hfree (by omega)⟩
      · exact ⟨le_rfl, by omega, fun _ => by assumption⟩

theorem scanBit_spec (byte : UInt8) (left idxBit : ℕ) (hlast : left + idxBit = 8)
    (hfree : ∃ i, idxBit ≤ i ∧ i < 8 ∧ byte.toBitVec.getLsbD i = false) :
    scanBit byte left idxBit < 8 ∧ byte.toBitVec.getLsbD (scanBit byte left idxBit) = false := by
  induction left generalizing idxBit with
  | zero =>
      obtain ⟨i, hlow, hi, -⟩ := hfree
      omega
  | succ left ih =>
      simp only [scanBit]
      split
      · rename_i hset
        refine ih (idxBit + 1) (by omega) ?_
        obtain ⟨i, hlow, hi, hclear⟩ := hfree
        refine ⟨i, ?_, hi, hclear⟩
        rcases Nat.lt_or_ge idxBit i with hlt | hge
        · exact hlt
        · have : i = idxBit := by omega
          subst this
          rw [and_bitMask_ne_zero byte hi] at hset
          simp [hset] at hclear
      · rename_i hclear
        have hi : idxBit < 8 := by omega
        rw [and_bitMask_ne_zero byte hi] at hclear
        exact ⟨hi, by simpa using hclear⟩

theorem exists_clear_bit {byte : UInt8} (h : byte ≠ 0xff) :
    ∃ i, 0 ≤ i ∧ i < 8 ∧ byte.toBitVec.getLsbD i = false := by
  by_contra hall
  apply h
  rw [← UInt8.toBitVec_inj]
  apply BitVec.eq_of_getLsbD_eq
  intro j hj
  have hset : byte.toBitVec.getLsbD j = true := by
    by_contra hclear
    exact hall ⟨j, Nat.zero_le _, hj, by simpa using hclear⟩
  rw [hset]
  interval_cases j <;> decide

/-- A scan for one bit that succeeds returns a clear bit inside the bitmap. -/
theorem bit_of_bitmapScan_one {btmp : Bitmap} {i : ℕ} (h : bitmapScan btmp 1 = some i) :
    i < btmp.btmpBytesLen * 8 ∧ btmp.bit i = false := by
  simp only [bitmapScan, if_true] at h
  split at h
  · simp at h
  · rename_i hne
    obtain ⟨-, hle, hfree⟩ := scanByte_spec btmp.bits btmp.btmpBytesLen 0
    set idxByte := scanByte btmp.bits btmp.btmpBytesLen 0
    have hlt : idxByte < btmp.btmpBytesLen := by omega
    obtain ⟨hbit, hclear⟩ :=
      scanBit_spec (btmp.bits idxByte) 8 0 rfl (exists_clear_bit (hfree (by omega)))
    have hi : i = idxByte * 8 + scanBit (btmp.bits idxByte) 8 0 := by simpa using h.symm
    have hdiv : i / 8 = idxByte := by omega
    have hmod : i % 8 = scanBit (btmp.bits idxByte) 8 0 := by omega
    refine ⟨by omega, ?_⟩
    rw [Bitmap.bit, hdiv, hmod]
    exact hclear

/-- The bytes before the first one that is not full. -/
theorem scanByte_before {bits : Bytes} {left idxByte : ℕ} :
    ∀ i, idxByte ≤ i → i < scanByte bits left idxByte → bits i = 0xff := by
  induction left generalizing idxByte with
  | zero =>
      intro i hlow hhigh
      exact absurd hhigh (Nat.not_lt.mpr hlow)
  | succ left ih =>
      intro i hlow hhigh
      rw [scanByte] at hhigh
      split at hhigh
      next hfull =>
        rcases Nat.eq_or_lt_of_le hlow with rfl | hlt
        · exact hfull
        · exact ih i hlt hhigh
      next => exact absurd hhigh (Nat.not_lt.mpr hlow)

/-- The bits before the first clear bit of a byte. -/
theorem scanBit_before {byte : UInt8} {left idxBit : ℕ} (hlast : left + idxBit = 8) :
    ∀ i, idxBit ≤ i → i < scanBit byte left idxBit → byte.toBitVec.getLsbD i = true := by
  induction left generalizing idxBit with
  | zero =>
      intro i hlow hhigh
      exact absurd hhigh (Nat.not_lt.mpr hlow)
  | succ left ih =>
      intro i hlow hhigh
      rw [scanBit] at hhigh
      split at hhigh
      next hset =>
        rcases Nat.eq_or_lt_of_le hlow with rfl | hlt
        · exact (and_bitMask_ne_zero byte (by omega)).mp hset
        · exact ih (by omega) i hlt hhigh
      next => exact absurd hhigh (Nat.not_lt.mpr hlow)

theorem bit_of_full_byte {btmp : Bitmap} {i : ℕ} (h : btmp.bits (i / 8) = 0xff) : btmp.bit i = true := by
  have hi8 : i % 8 < 8 := Nat.mod_lt _ (by omega)
  rw [Bitmap.bit, h]
  generalize i % 8 = j at hi8
  interval_cases j <;> decide

/-- A scan for one bit fails only if every bit is set. -/
theorem bit_of_bitmapScan_none {btmp : Bitmap} (h : bitmapScan btmp 1 = none) {i : ℕ}
    (hi : i < btmp.btmpBytesLen * 8) : btmp.bit i = true := by
  have hfull : scanByte btmp.bits btmp.btmpBytesLen 0 = btmp.btmpBytesLen := by
    by_contra hne
    simp [bitmapScan, hne] at h
  have hbyte : i / 8 < scanByte btmp.bits btmp.btmpBytesLen 0 := by
    rw [hfull]
    omega
  exact bit_of_full_byte (scanByte_before _ (Nat.zero_le _) hbyte)

/-- A scan for one bit returns the first clear bit. -/
theorem bit_before_bitmapScan_one {btmp : Bitmap} {i j : ℕ} (h : bitmapScan btmp 1 = some i)
    (hj : j < i) : btmp.bit j = true := by
  simp only [bitmapScan, if_true] at h
  split at h
  · cases h
  next hne =>
    have hi : i = scanByte btmp.bits btmp.btmpBytesLen 0 * 8 +
        scanBit (btmp.bits (scanByte btmp.bits btmp.btmpBytesLen 0)) 8 0 := by simpa using h.symm
    obtain ⟨-, hle, hfree⟩ := scanByte_spec btmp.bits btmp.btmpBytesLen 0
    obtain ⟨hlt, -⟩ := scanBit_spec (btmp.bits (scanByte btmp.bits btmp.btmpBytesLen 0)) 8 0 rfl
      (exists_clear_bit (hfree (by omega)))
    rcases Nat.lt_or_ge (j / 8) (scanByte btmp.bits btmp.btmpBytesLen 0) with hbyte | hbyte
    · exact bit_of_full_byte (scanByte_before _ (Nat.zero_le _) hbyte)
    · have hdiv : j / 8 = scanByte btmp.bits btmp.btmpBytesLen 0 := by omega
      rw [Bitmap.bit, hdiv]
      exact scanBit_before rfl _ (Nat.zero_le _) (by omega)

/-! ## Scanning for a run of clear bits -/

theorem bitmapScanTest_eq_bit (btmp : Bitmap) (i : ℕ) : bitmapScanTest btmp i = btmp.bit i := by
  have hi : i % 8 < 8 := Nat.mod_lt _ (by omega)
  have hiff := and_bitMask_ne_zero (btmp.bits (i / 8)) hi
  rw [Bool.eq_iff_iff, Bitmap.bit, ← hiff, UInt8.and_comm]
  simp [bitmapScanTest]

/-- With `count` clear bits just before `nextBit`, the last loop of `bitmap_scan` can
only end with a run of clear bits. -/
theorem bit_of_scanRun {btmp : Bitmap} {cnt bitLeft nextBit count s : ℕ} (hle : count ≤ nextBit)
    (hclear : ∀ c < count, btmp.bit (nextBit - count + c) = false)
    (h : scanRun btmp cnt bitLeft nextBit count = some s) : ∀ c < cnt, btmp.bit (s + c) = false := by
  induction bitLeft generalizing nextBit count with
  | zero => simp [scanRun] at h
  | succ bitLeft ih =>
      simp only [scanRun, bitmapScanTest_eq_bit] at h
      -- the run that ends with `nextBit`
      set count' := if btmp.bit nextBit = true then 0 else count + 1 with hcount
      have hle' : count' ≤ nextBit + 1 := by
        rw [hcount]
        split <;> omega
      have hclear' : ∀ c < count', btmp.bit (nextBit + 1 - count' + c) = false := by
        intro c hc
        rw [hcount] at hc ⊢
        split at hc
        · omega
        next hnext =>
          rw [if_neg hnext]
          rcases Nat.lt_or_ge c count with hlt | hge
          · have := hclear c hlt
            rwa [show nextBit + 1 - (count + 1) + c = nextBit - count + c by omega]
          · rw [show nextBit + 1 - (count + 1) + c = nextBit by omega]
            simpa using hnext
      split at h
      next heq =>
        cases h
        rw [heq] at hclear'
        exact hclear'
      next => exact ih hle' hclear' h

/-- A scan that succeeds returns the start of a run of clear bits. -/
theorem bit_of_bitmapScan {btmp : Bitmap} {cnt s : ℕ} (h : bitmapScan btmp cnt = some s) :
    ∀ c < cnt, btmp.bit (s + c) = false := by
  by_cases hone : cnt = 1
  · subst hone
    intro c hc
    rw [Nat.lt_one_iff.mp hc]
    exact (bit_of_bitmapScan_one h).2
  · simp only [bitmapScan, hone, if_false] at h
    split at h
    · cases h
    next hne =>
      set idxByte := scanByte btmp.bits btmp.btmpBytesLen 0 with hidx
      set start := idxByte * 8 + scanBit (btmp.bits idxByte) 8 0 with hstart
      have hfirst : bitmapScan btmp 1 = some start := by
        simp only [bitmapScan, if_true, ← hidx, if_neg hne, ← hstart]
      refine bit_of_scanRun (by omega) ?_ h
      intro c hc
      rw [Nat.lt_one_iff.mp hc]
      simpa using (bit_of_bitmapScan_one hfirst).2

end BochsOs
