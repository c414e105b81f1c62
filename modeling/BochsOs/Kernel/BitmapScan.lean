import BochsOs.Kernel.Bitmap
import Mathlib.Order.Bounds.Basic

/-!
# Which run `bitmap_scan` finds

`bitmap_scan` should find the first run of `cnt` clear bits and look at no bit behind the end
of the bitmap.  In a bitmap of less than 2 ^ 29 bytes it does so as long as there is such a run
(`bitmapScan32_right_iff_of_short`).  Without one it always looks one byte too far: the first loop
reads the byte at `idx_byte` before it compares `idx_byte` with the length, and the last loop
counts the bits that are left from the bit it has already looked at, so that its last round
tests the bit at the end of the bitmap.

Bits are numbered by `uint32_t`, and by `int` in the result: `bitmapScan32` computes as the source
does, and the `bitmapScan` of `BochsOs.Kernel.Bitmap` is what it comes to in bitmaps whose bits all
have a number (`bitmapScan32_eq`); the bitmaps of the kernel have fewer than 2 ^ 28 bytes.  In a
longer one the number of bits wraps around, so that the last loop ends early or comes back to the
full bytes at the start; `bitmapScan32_right_iff` is about every length.

`bitmapScanReads` lists the bytes that are read; `bitmapScan32_congr` says that the result
depends on these bytes only.
-/

namespace BochsOs

open ByteMemory

/-! ## The bytes that are read -/

/-- The bytes read by the first loop.  `btmp->bits[idx_byte]` is read before the bound is
checked. -/
def scanByteReads (bits : Bytes) : (left idxByte : ℕ) → List ℕ
  | 0, idxByte => [idxByte]
  | left + 1, idxByte =>
      idxByte :: if bits idxByte = 0xff then scanByteReads bits left (idxByte + 1) else []

/-- The bytes read by the last loop, as long as the bits have a number. -/
def scanRunReads (btmp : Bitmap) (cnt : ℕ) : (bitLeft nextBit count : ℕ) → List ℕ
  | 0, _, _ => []
  | bitLeft + 1, nextBit, count =>
      let count := if bitmapScanTest btmp nextBit then 0 else count + 1
      nextBit / 8 :: if count = cnt then [] else scanRunReads btmp cnt bitLeft (nextBit + 1) count

/-! ## The scan in numbers of 32 bits -/

/-- The last loop of `bitmap_scan`; `next_bit` and `count` are `uint32_t`. -/
def scanRun32 (btmp : Bitmap) (cnt : ℕ) : (bitLeft nextBit count : ℕ) → Option ℕ
  | 0, _, _ => none
  | bitLeft + 1, nextBit, count =>
      let count := if bitmapScanTest btmp nextBit then 0 else (count + 1) % 2 ^ 32
      if count = cnt then some ((nextBit + (2 ^ 32 - cnt) + 1) % 2 ^ 32)
      else scanRun32 btmp cnt bitLeft ((nextBit + 1) % 2 ^ 32) count

/-- The bytes that it reads. -/
def scanRunReads32 (btmp : Bitmap) (cnt : ℕ) : (bitLeft nextBit count : ℕ) → List ℕ
  | 0, _, _ => []
  | bitLeft + 1, nextBit, count =>
      let count := if bitmapScanTest btmp nextBit then 0 else (count + 1) % 2 ^ 32
      nextBit / 8 ::
        if count = cnt then [] else scanRunReads32 btmp cnt bitLeft ((nextBit + 1) % 2 ^ 32) count

/-- `bit_idx_start` behind the second loop. -/
def bitIdxStart32 (btmp : Bitmap) (idxByte : ℕ) : ℕ :=
  (idxByte * 8 + scanBit (btmp.bits idxByte) 8 0) % 2 ^ 32

/-- `bit_left` before the last loop. -/
def bitLeft32 (btmp : Bitmap) (bitIdxStart : ℕ) : ℕ :=
  (btmp.btmpBytesLen * 8 + (2 ^ 32 - bitIdxStart)) % 2 ^ 32

/-- `bitmap_scan` as it computes, for a length and a `cnt` that are `uint32_t`. -/
def bitmapScan32 (btmp : Bitmap) (cnt : ℕ) : Option ℕ :=
  let idxByte := scanByte btmp.bits btmp.btmpBytesLen 0
  if idxByte = btmp.btmpBytesLen then none
  else
    let bitIdxStart := bitIdxStart32 btmp idxByte
    if cnt = 1 then some bitIdxStart
    else scanRun32 btmp cnt (bitLeft32 btmp bitIdxStart) ((bitIdxStart + 1) % 2 ^ 32) 1

/-- The bytes read by `bitmap_scan`.  The second loop reads the byte `idx_byte` only. -/
def bitmapScanReads (btmp : Bitmap) (cnt : ℕ) : List ℕ :=
  let idxByte := scanByte btmp.bits btmp.btmpBytesLen 0
  scanByteReads btmp.bits btmp.btmpBytesLen 0 ++
    if idxByte = btmp.btmpBytesLen then []
    else
      let bitIdxStart := bitIdxStart32 btmp idxByte
      idxByte :: if cnt = 1 then []
        else scanRunReads32 btmp cnt (bitLeft32 btmp bitIdxStart) ((bitIdxStart + 1) % 2 ^ 32) 1

/-- The `int` that `bitmap_scan` returns. -/
def bitmapScanInt (btmp : Bitmap) (cnt : ℕ) : ℤ :=
  match bitmapScan32 btmp cnt with
  | none => -1
  | some bitIdx => (BitVec.ofNat 32 bitIdx).toInt

section Reads

variable {btmp btmp' : Bitmap} {bits bits' : Bytes}

theorem scanByte_congr {left idxByte : ℕ}
    (hreads : ∀ j ∈ scanByteReads bits left idxByte, bits' j = bits j) :
    scanByte bits' left idxByte = scanByte bits left idxByte := by
  induction left generalizing idxByte with
  | zero => rfl
  | succ left ih =>
      have hhead : bits' idxByte = bits idxByte := hreads _ (List.mem_cons_self ..)
      simp only [scanByte, hhead]
      split
      next hfull =>
        refine ih fun j hj => hreads j ?_
        simp only [scanByteReads, if_pos hfull]
        exact List.mem_cons_of_mem _ hj
      next => rfl

theorem scanRun32_congr {cnt bitLeft nextBit count : ℕ}
    (hreads : ∀ j ∈ scanRunReads32 btmp cnt bitLeft nextBit count, btmp'.bits j = btmp.bits j) :
    scanRun32 btmp' cnt bitLeft nextBit count = scanRun32 btmp cnt bitLeft nextBit count := by
  induction bitLeft generalizing nextBit count with
  | zero => rfl
  | succ bitLeft ih =>
      have hhead : btmp'.bits (nextBit / 8) = btmp.bits (nextBit / 8) :=
        hreads _ (List.mem_cons_self ..)
      have htest : bitmapScanTest btmp' nextBit = bitmapScanTest btmp nextBit := by
        simp only [bitmapScanTest, hhead]
      simp only [scanRun32, htest]
      simp only [scanRunReads32] at hreads
      set count' := if bitmapScanTest btmp nextBit = true then 0 else (count + 1) % 2 ^ 32
      by_cases heq : count' = cnt
      · rw [if_pos heq, if_pos heq]
      · rw [if_neg heq, if_neg heq]
        rw [if_neg heq] at hreads
        exact ih fun j hj => hreads j (List.mem_cons_of_mem _ hj)

/-- The result depends on the bytes that are read only. -/
theorem bitmapScan32_congr {cnt : ℕ} (hlen : btmp'.btmpBytesLen = btmp.btmpBytesLen)
    (hreads : ∀ j ∈ bitmapScanReads btmp cnt, btmp'.bits j = btmp.bits j) :
    bitmapScan32 btmp' cnt = bitmapScan32 btmp cnt := by
  have hbyte : scanByte btmp'.bits btmp.btmpBytesLen 0 = scanByte btmp.bits btmp.btmpBytesLen 0 :=
    scanByte_congr fun j hj => hreads j (List.mem_append_left _ hj)
  simp only [bitmapScan32, hlen, hbyte]
  split
  next => rfl
  next hne =>
    simp only [bitmapScanReads, if_neg hne] at hreads
    have hbits := hreads _ (List.mem_append_right _ (List.mem_cons_self ..))
    simp only [bitIdxStart32, bitLeft32, hlen, hbits]
    split
    next => rfl
    next hone =>
      refine scanRun32_congr fun j hj => hreads j ?_
      rw [if_neg hone]
      exact List.mem_append_right _ (List.mem_cons_of_mem _ hj)

end Reads

/-! ## Runs of clear bits -/

/-- The `cnt` bits from `s` on exist and are clear. -/
def Bitmap.Run (btmp : Bitmap) (cnt s : ℕ) : Prop :=
  s + cnt ≤ 8 * btmp.btmpBytesLen ∧ ∀ c < cnt, btmp.bit (s + c) = false

/-- What a scan for `cnt` clear bits should do. -/
structure Bitmap.ScansRight (btmp : Bitmap) (cnt : ℕ) : Prop where
  reads : ∀ j ∈ bitmapScanReads btmp cnt, j < btmp.btmpBytesLen
  result : (∃ s, IsLeast {s | btmp.Run cnt s} s ∧ bitmapScanInt btmp cnt = s) ∨
    (∀ s, ¬ btmp.Run cnt s) ∧ bitmapScanInt btmp cnt = -1

section Runs

variable {btmp : Bitmap} {cnt s : ℕ}

/-- The bit before the first run is set. -/
theorem bit_before_least (hs : IsLeast {s | btmp.Run cnt s} (s + 1)) :
    btmp.bit s = true := by
  obtain ⟨hfit, hclear⟩ := hs.1
  by_contra hbit
  have hrun : btmp.Run cnt s := by
    refine ⟨by omega, fun c hc => ?_⟩
    rcases Nat.eq_zero_or_pos c with rfl | hpos
    · simpa using hbit
    · have := hclear (c - 1) (by omega)
      rwa [show s + 1 + (c - 1) = s + c by omega] at this
  have hle : s + 1 ≤ s := hs.2 hrun
  omega

/-- The last loop finds the first run, if it starts before the end of the run.  `count`
clear bits end just before `nextBit`, and none of them lies before the first run once that is
reached. -/
theorem scanRun_least (bitLeft nextBit count : ℕ) (hcnt : 1 ≤ cnt)
    (hs : IsLeast {s | btmp.Run cnt s} s) (hlow : nextBit < s + cnt)
    (hleft : s + cnt ≤ nextBit + bitLeft) (hle : count ≤ nextBit)
    (hclear : ∀ c < count, btmp.bit (nextBit - count + c) = false)
    (hcount : s ≤ nextBit → nextBit = s + count) :
    scanRun btmp cnt bitLeft nextBit count = some s ∧
      ∀ j ∈ scanRunReads btmp cnt bitLeft nextBit count, j < btmp.btmpBytesLen := by
  obtain ⟨hfit, hrun⟩ := hs.1
  induction bitLeft generalizing nextBit count with
  | zero => omega
  | succ bitLeft ih =>
      have hbyte : nextBit / 8 < btmp.btmpBytesLen := by omega
      simp only [scanRun, scanRunReads, bitmapScanTest_eq_bit]
      cases hbit : btmp.bit nextBit with
      | true =>
          -- the run has not begun
          have hbefore : nextBit < s := by
            by_contra hge
            have := hrun (nextBit - s) (by omega)
            rw [show s + (nextBit - s) = nextBit by omega, hbit] at this
            cases this
          rw [if_pos rfl, if_neg (by omega), if_neg (by omega)]
          obtain ⟨hres, hreads⟩ := ih (nextBit + 1) 0 (by omega) (by omega)
            (by omega) (fun c hc => absurd hc (Nat.not_lt_zero _)) (by omega)
          exact ⟨hres, List.forall_mem_cons.mpr ⟨hbyte, hreads⟩⟩
      | false =>
          rw [if_neg Bool.false_ne_true]
          have hclear' : ∀ c < count + 1, btmp.bit (nextBit - count + c) = false := by
            intro c hc
            rcases Nat.lt_or_ge c count with hlt | hge
            · exact hclear c hlt
            · rwa [show nextBit - count + c = nextBit by omega]
          by_cases hin : s ≤ nextBit
          · have heq := hcount hin
            by_cases hdone : count + 1 = cnt
            · rw [if_pos hdone, if_pos hdone, show nextBit + 1 - cnt = s by omega]
              exact ⟨rfl, List.forall_mem_cons.mpr ⟨hbyte, fun j hj => by cases hj⟩⟩
            · rw [if_neg hdone, if_neg hdone]
              obtain ⟨hres, hreads⟩ := ih (nextBit + 1) (count + 1) (by omega)
                (by omega) (by omega) (fun c hc => by
                  rw [show nextBit + 1 - (count + 1) + c = nextBit - count + c by omega]
                  exact hclear' c hc) (by omega)
              exact ⟨hres, List.forall_mem_cons.mpr ⟨hbyte, hreads⟩⟩
          · -- as many clear bits before the first run are too few
            have hne : count + 1 ≠ cnt := by
              intro hdone
              have hearly : btmp.Run cnt (nextBit - count) :=
                ⟨by omega, fun c hc => hclear' c (by omega)⟩
              have : s ≤ nextBit - count := hs.2 hearly
              omega
            have hnext : nextBit + 1 ≠ s := by
              rintro rfl
              rw [bit_before_least hs] at hbit
              cases hbit
            rw [if_neg hne, if_neg hne]
            obtain ⟨hres, hreads⟩ := ih (nextBit + 1) (count + 1) (by omega)
              (by omega) (by omega) (fun c hc => by
                rw [show nextBit + 1 - (count + 1) + c = nextBit - count + c by omega]
                exact hclear' c hc) (by omega)
            exact ⟨hres, List.forall_mem_cons.mpr ⟨hbyte, hreads⟩⟩

/-- The last loop tests every bit it may test, unless it finds a run before the last one. -/
theorem scanRun_last (btmp : Bitmap) (cnt bitLeft nextBit count : ℕ) (hle : count ≤ nextBit) :
    (nextBit + bitLeft) / 8 ∈ scanRunReads btmp cnt (bitLeft + 1) nextBit count ∨
      ∃ s, scanRun btmp cnt (bitLeft + 1) nextBit count = some s ∧ s + cnt ≤ nextBit + bitLeft := by
  induction bitLeft generalizing nextBit count with
  | zero => exact Or.inl (List.mem_cons_self ..)
  | succ bitLeft ih =>
      simp only [scanRun, scanRunReads]
      set count' := if bitmapScanTest btmp nextBit = true then 0 else count + 1 with hcount
      have hle' : count' ≤ nextBit + 1 := by
        rw [hcount]
        split <;> omega
      split
      next heq => exact Or.inr ⟨_, rfl, by omega⟩
      next =>
        refine (ih _ _ hle').imp ?_ ?_
        · intro hmem
          rw [show nextBit + (bitLeft + 1) = nextBit + 1 + bitLeft by omega]
          exact List.mem_cons_of_mem _ hmem
        · rintro ⟨s, hs, hfit⟩
          exact ⟨s, hs, by omega⟩

end Runs

/-! ## The first clear bit -/

section Scan

variable {btmp : Bitmap} {cnt : ℕ}

/-- The first loop reads up to the byte that it finds. -/
theorem mem_scanByteReads {bits : Bytes} {left idxByte : ℕ} {j : ℕ} :
    j ∈ scanByteReads bits left idxByte ↔ idxByte ≤ j ∧ j ≤ scanByte bits left idxByte := by
  induction left generalizing idxByte with
  | zero =>
      simp only [scanByteReads, scanByte, List.mem_singleton]
      omega
  | succ left ih =>
      simp only [scanByteReads, scanByte, List.mem_cons]
      split
      next =>
        have hlow := (scanByte_spec bits left (idxByte + 1)).1
        rw [ih]
        omega
      next =>
        simp only [List.not_mem_nil, or_false]
        omega

/-- The first clear bit: where the last loop begins. -/
theorem exists_start (hne : scanByte btmp.bits btmp.btmpBytesLen 0 ≠ btmp.btmpBytesLen) :
    ∃ start, scanByte btmp.bits btmp.btmpBytesLen 0 * 8 +
        scanBit (btmp.bits (scanByte btmp.bits btmp.btmpBytesLen 0)) 8 0 = start ∧
      start < 8 * btmp.btmpBytesLen ∧ btmp.bit start = false ∧ ∀ j < start, btmp.bit j = true := by
  refine ⟨_, rfl, ?_⟩
  have hscan : bitmapScan btmp 1 = some (scanByte btmp.bits btmp.btmpBytesLen 0 * 8 +
      scanBit (btmp.bits (scanByte btmp.bits btmp.btmpBytesLen 0)) 8 0) := by
    simp only [bitmapScan, if_neg hne, if_true]
  obtain ⟨hlt, hclear⟩ := bit_of_bitmapScan_one hscan
  exact ⟨by omega, hclear, fun j hj => bit_before_bitmapScan_one hscan hj⟩

/-- With every byte full there is no run. -/
theorem not_run_of_full (hfull : scanByte btmp.bits btmp.btmpBytesLen 0 = btmp.btmpBytesLen)
    (hcnt : 1 ≤ cnt) (s : ℕ) : ¬ btmp.Run cnt s := by
  rintro ⟨hfit, hclear⟩
  have hnone : bitmapScan btmp 1 = none := by simp only [bitmapScan, if_pos hfull]
  have hset := bit_of_bitmapScan_none hnone (i := s) (by omega)
  rw [show s = s + 0 from rfl, hclear 0 hcnt] at hset
  cases hset

/-! ## Where the numbers wrap around -/

/-- Where every bit with a number is set, nothing is found. -/
theorem scanRun32_set {bitLeft nextBit count : ℕ} (hcnt : 1 ≤ cnt)
    (hset : ∀ j < bitLeft, btmp.bit ((nextBit + j) % 2 ^ 32) = true) :
    scanRun32 btmp cnt bitLeft (nextBit % 2 ^ 32) count = none := by
  induction bitLeft generalizing nextBit count with
  | zero => rfl
  | succ bitLeft ih =>
      have hbit : btmp.bit (nextBit % 2 ^ 32) = true := hset 0 (Nat.succ_pos _)
      rw [scanRun32, bitmapScanTest_eq_bit, hbit, if_pos rfl, if_neg (by omega), Nat.mod_add_mod]
      refine ih fun j hj => ?_
      rw [show nextBit + 1 + j = nextBit + (j + 1) by omega]
      exact hset (j + 1) (by omega)

/-- Up to the bit 2 ^ 32 the last loop is the one in natural numbers, and behind it nothing is
found as long as the bits that it comes back to are set. -/
theorem scanRun32_eq (m k nextBit count : ℕ) (hcnt : 1 ≤ cnt) (hword : cnt < 2 ^ 32)
    (hfit : nextBit + m ≤ 2 ^ 32) (hwrap : 0 < k → nextBit + m = 2 ^ 32)
    (hset : ∀ j < k, j < 2 ^ 32 ∧ btmp.bit j = true) (hle : count ≤ nextBit) :
    scanRun32 btmp cnt (m + k) (nextBit % 2 ^ 32) (count % 2 ^ 32) =
      scanRun btmp cnt m nextBit count := by
  induction m generalizing nextBit count with
  | zero =>
      rcases Nat.eq_zero_or_pos k with rfl | hk
      · rfl
      · rw [Nat.zero_add]
        refine scanRun32_set hcnt fun j hj => ?_
        obtain ⟨hlt, hbit⟩ := hset j hj
        rw [show (nextBit + j) % 2 ^ 32 = j by omega, hbit]
  | succ m ih =>
      rw [Nat.succ_add, scanRun32, scanRun, Nat.mod_eq_of_lt (show nextBit < 2 ^ 32 by omega)]
      simp only [bitmapScanTest_eq_bit]
      cases hbit : btmp.bit nextBit with
      | true =>
          rw [if_pos rfl, if_pos rfl, if_neg (by omega), if_neg (by omega)]
          exact ih (nextBit + 1) 0 (by omega) (by omega) (Nat.zero_le _)
      | false =>
          rw [if_neg Bool.false_ne_true, if_neg Bool.false_ne_true, Nat.mod_add_mod]
          -- a count of 2 ^ 32 is 0, and both are no `cnt`
          by_cases hdone : count + 1 = cnt
          · rw [if_pos (by omega), if_pos hdone]
            exact congrArg some (by omega)
          · rw [if_neg (by omega), if_neg hdone]
            exact ih (nextBit + 1) (count + 1) (by omega) (by omega) (by omega)

/-- The bytes that are read below the bit 2 ^ 32. -/
theorem scanRunReads32_eq (m nextBit count : ℕ) (hcnt : 1 ≤ cnt) (hword : cnt < 2 ^ 32)
    (hfit : nextBit + m ≤ 2 ^ 32) (hle : count ≤ nextBit) :
    scanRunReads32 btmp cnt m (nextBit % 2 ^ 32) (count % 2 ^ 32) =
      scanRunReads btmp cnt m nextBit count := by
  induction m generalizing nextBit count with
  | zero => rfl
  | succ m ih =>
      rw [scanRunReads32, scanRunReads, Nat.mod_eq_of_lt (show nextBit < 2 ^ 32 by omega)]
      simp only [bitmapScanTest_eq_bit]
      refine congrArg _ ?_
      cases hbit : btmp.bit nextBit with
      | true =>
          rw [if_pos rfl, if_pos rfl, if_neg (by omega), if_neg (by omega)]
          exact ih (nextBit + 1) 0 (by omega) (Nat.zero_le _)
      | false =>
          rw [if_neg Bool.false_ne_true, if_neg Bool.false_ne_true, Nat.mod_add_mod]
          by_cases hdone : count + 1 = cnt
          · rw [if_pos (by omega), if_pos hdone]
          · rw [if_neg (by omega), if_neg hdone]
            exact ih (nextBit + 1) (count + 1) (by omega) (by omega)

/-- A bit with a number lies in one of the first 2 ^ 29 bytes. -/
theorem lt_of_mem_scanRunReads32 {bitLeft nextBit count j : ℕ} (hlt : nextBit < 2 ^ 32)
    (hj : j ∈ scanRunReads32 btmp cnt bitLeft nextBit count) : j < 2 ^ 29 := by
  induction bitLeft generalizing nextBit count with
  | zero => cases hj
  | succ bitLeft ih =>
      rw [scanRunReads32] at hj
      rcases List.mem_cons.mp hj with rfl | hj
      · omega
      · set count' := if bitmapScanTest btmp nextBit = true then 0 else (count + 1) % 2 ^ 32
        by_cases hdone : count' = cnt
        · rw [if_pos hdone] at hj
          cases hj
        · rw [if_neg hdone] at hj
          exact ih (Nat.mod_lt _ (by decide)) hj

/-- A run that the last loop finds ends before the bit that it would test next. -/
theorem scanRun_le {bitLeft nextBit count s : ℕ} (hle : count ≤ nextBit)
    (h : scanRun btmp cnt bitLeft nextBit count = some s) : s + cnt ≤ nextBit + bitLeft := by
  induction bitLeft generalizing nextBit count with
  | zero => cases h
  | succ bitLeft ih =>
      rw [scanRun] at h
      set count' := if bitmapScanTest btmp nextBit = true then 0 else count + 1 with hcount
      have hle' : count' ≤ nextBit + 1 := by
        rw [hcount]
        split <;> omega
      by_cases heq : count' = cnt
      · rw [if_pos heq] at h
        have := Option.some.inj h
        omega
      · rw [if_neg heq] at h
        have := ih hle' h
        omega

/-- The first clear bit, by its number. -/
def Bitmap.FirstClear (btmp : Bitmap) (start : ℕ) : Prop :=
  start < 8 * btmp.btmpBytesLen ∧ btmp.bit start = false ∧ ∀ j < start, btmp.bit j = true

/-- How far the last loop gets in natural numbers: it stops at the bit 2 ^ 32. -/
def Bitmap.rounds (btmp : Bitmap) (start : ℕ) : ℕ :=
  min ((8 * btmp.btmpBytesLen - start) % 2 ^ 32) (2 ^ 32 - (start + 1))

section FirstClear

variable {start : ℕ}

/-- The two first loops find the first clear bit. -/
theorem Bitmap.FirstClear.found (hstart : btmp.FirstClear start) :
    scanByte btmp.bits btmp.btmpBytesLen 0 ≠ btmp.btmpBytesLen ∧
      scanByte btmp.bits btmp.btmpBytesLen 0 * 8 +
        scanBit (btmp.bits (scanByte btmp.bits btmp.btmpBytesLen 0)) 8 0 = start := by
  obtain ⟨hfit, hclear, hfirst⟩ := hstart
  have hne : scanByte btmp.bits btmp.btmpBytesLen 0 ≠ btmp.btmpBytesLen := by
    intro hfull
    refine not_run_of_full hfull (le_refl 1) start ⟨by omega, fun c hc => ?_⟩
    rw [Nat.lt_one_iff.mp hc]
    exact hclear
  obtain ⟨start', hstart', -, hclear', hfirst'⟩ := exists_start hne
  refine ⟨hne, hstart'.trans ?_⟩
  rcases Nat.lt_trichotomy start' start with hbefore | heq | hbehind
  · rw [hfirst start' hbefore] at hclear'
    cases hclear'
  · exact heq
  · rw [hfirst' start hbehind] at hclear
    cases hclear

theorem Bitmap.FirstClear.run_one (hstart : btmp.FirstClear start) : btmp.Run 1 start := by
  refine ⟨by have := hstart.1; omega, fun c hc => ?_⟩
  rw [Nat.lt_one_iff.mp hc]
  exact hstart.2.1

theorem Bitmap.FirstClear.le_run {s : ℕ} (hstart : btmp.FirstClear start) (hcnt : 1 ≤ cnt)
    (hs : btmp.Run cnt s) : start ≤ s := by
  by_contra hbefore
  have hset := hstart.2.2 s (by omega)
  rw [show s = s + 0 from rfl, hs.2 0 hcnt] at hset
  cases hset

/-- What the scan for more than one bit comes to. -/
theorem bitmapScan32_of_firstClear (hstart : btmp.FirstClear start) (hlt : start < 2 ^ 32)
    (hcnt : 1 < cnt) (hword : cnt < 2 ^ 32) :
    bitmapScan32 btmp cnt = scanRun btmp cnt (btmp.rounds start) (start + 1) 1 := by
  obtain ⟨hne, hfound⟩ := hstart.found
  have hidx : bitIdxStart32 btmp (scanByte btmp.bits btmp.btmpBytesLen 0) = start := by
    rw [bitIdxStart32, hfound, Nat.mod_eq_of_lt hlt]
  have hleft : bitLeft32 btmp start = (8 * btmp.btmpBytesLen - start) % 2 ^ 32 := by
    have := hstart.1
    rw [bitLeft32]
    omega
  simp only [bitmapScan32, if_neg hne, hidx, if_neg hcnt.ne', hleft]
  obtain ⟨k, hk⟩ : ∃ k, (8 * btmp.btmpBytesLen - start) % 2 ^ 32 = btmp.rounds start + k :=
    ⟨_, (Nat.add_sub_cancel' (Nat.min_le_left _ _)).symm⟩
  have hrounds : btmp.rounds start = min ((8 * btmp.btmpBytesLen - start) % 2 ^ 32)
      (2 ^ 32 - (start + 1)) := rfl
  rw [hk]
  refine scanRun32_eq _ k (start + 1) 1 hcnt.le hword (by omega) (by omega) (fun j hj => ?_) (by omega)
  exact ⟨by omega, hstart.2.2 j (by omega)⟩

/-- The scan for one bit. -/
theorem bitmapScan32_one (hstart : btmp.FirstClear start) :
    bitmapScan32 btmp 1 = some (start % 2 ^ 32) := by
  obtain ⟨hne, hfound⟩ := hstart.found
  rw [bitmapScan32, if_neg hne, if_pos rfl, bitIdxStart32, hfound]

/-- The bytes that are read before the last loop lie in the bitmap. -/
theorem lt_or_mem_of_mem_reads {j : ℕ} (hstart : btmp.FirstClear start)
    (hj : j ∈ bitmapScanReads btmp cnt) : j < btmp.btmpBytesLen ∨ cnt ≠ 1 ∧
      j ∈ scanRunReads32 btmp cnt (bitLeft32 btmp (start % 2 ^ 32)) ((start % 2 ^ 32 + 1) % 2 ^ 32) 1 := by
  obtain ⟨hne, hfound⟩ := hstart.found
  have hfit := hstart.1
  have hidx : bitIdxStart32 btmp (scanByte btmp.bits btmp.btmpBytesLen 0) = start % 2 ^ 32 := by
    rw [bitIdxStart32, hfound]
  simp only [bitmapScanReads, if_neg hne, hidx] at hj
  rcases List.mem_append.mp hj with hj | hj
  · have := (mem_scanByteReads.mp hj).2
    exact Or.inl (by omega)
  · rcases List.mem_cons.mp hj with rfl | hj
    · exact Or.inl (by omega)
    · by_cases hone : cnt = 1
      · rw [if_pos hone] at hj
        cases hj
      · rw [if_neg hone] at hj
        exact Or.inr ⟨hone, hj⟩

/-- In a bitmap of less than 2 ^ 29 bytes the last loop has all the bits before it. -/
theorem rounds_of_short (hlen : btmp.btmpBytesLen < 2 ^ 29) (hstart : btmp.FirstClear start) :
    btmp.rounds start = 8 * btmp.btmpBytesLen - start ∧
      bitLeft32 btmp (start % 2 ^ 32) = 8 * btmp.btmpBytesLen - start := by
  have hfit := hstart.1
  rw [Bitmap.rounds, bitLeft32]
  omega

theorem scanRunReads32_of_short (hlen : btmp.btmpBytesLen < 2 ^ 29) (hstart : btmp.FirstClear start)
    (hcnt : 1 ≤ cnt) (hword : cnt < 2 ^ 32) :
    scanRunReads32 btmp cnt (bitLeft32 btmp (start % 2 ^ 32)) ((start % 2 ^ 32 + 1) % 2 ^ 32) 1 =
      scanRunReads btmp cnt (8 * btmp.btmpBytesLen - start) (start + 1) 1 := by
  have hfit := hstart.1
  rw [(rounds_of_short hlen hstart).2, Nat.mod_add_mod]
  exact scanRunReads32_eq _ (start + 1) 1 hcnt hword (by omega) (by omega)

end FirstClear

/-! ## The whole scan -/

/-- In a bitmap whose bits all have a number the scan is the one in natural numbers. -/
theorem bitmapScan32_eq (hlen : btmp.btmpBytesLen < 2 ^ 29) (hcnt : 1 ≤ cnt) (hword : cnt < 2 ^ 32) :
    bitmapScan32 btmp cnt = bitmapScan btmp cnt := by
  by_cases hfull : scanByte btmp.bits btmp.btmpBytesLen 0 = btmp.btmpBytesLen
  · simp only [bitmapScan32, bitmapScan, if_pos hfull]
  · obtain ⟨start, hstart, hfirst⟩ := exists_start hfull
    have hclear : btmp.FirstClear start := hfirst
    have hfit := hfirst.1
    by_cases hone : cnt = 1
    · subst hone
      rw [bitmapScan32_one hclear, Nat.mod_eq_of_lt (by omega)]
      simp only [bitmapScan, if_neg hfull, hstart, if_pos]
    · rw [bitmapScan32_of_firstClear hclear (by omega) (by omega) hword,
        (rounds_of_short hlen hclear).1]
      simp only [bitmapScan, if_neg hfull, hstart, if_neg hone]
      rw [Nat.mul_comm]

/-- When the scan does what it should.  With the first clear bit at `start`: the first run has a
number that fits in an `int`, and the last loop gets to its end before it has counted down or
its bit number wraps around; or there is no run, more than one bit is asked for, and the byte
behind the bitmap has no bit with a number. -/
def Bitmap.ScanFits (btmp : Bitmap) (cnt : ℕ) : Prop :=
  ∃ start, btmp.FirstClear start ∧
    ((∃ s, IsLeast {s | btmp.Run cnt s} s ∧ s < 2 ^ 31 ∧ s + cnt ≤ start + 1 + btmp.rounds start) ∨
      (∀ s, ¬ btmp.Run cnt s) ∧ 2 ^ 29 ≤ btmp.btmpBytesLen ∧ cnt ≠ 1)

/-- Without a run, a short bitmap is left: the byte behind it is read. -/
theorem mem_reads_of_not_run (hlen : btmp.btmpBytesLen < 2 ^ 29) (hcnt : 1 ≤ cnt)
    (hword : cnt < 2 ^ 32) (hnone : ∀ s, ¬ btmp.Run cnt s) :
    btmp.btmpBytesLen ∈ bitmapScanReads btmp cnt := by
  by_cases hfull : scanByte btmp.bits btmp.btmpBytesLen 0 = btmp.btmpBytesLen
  · exact List.mem_append_left _ (mem_scanByteReads.mpr ⟨Nat.zero_le _, hfull.ge⟩)
  · obtain ⟨start, hstart, hfirst⟩ := exists_start hfull
    have hclear : btmp.FirstClear start := hfirst
    have hfit := hfirst.1
    have hone : cnt ≠ 1 := by
      rintro rfl
      exact hnone start hclear.run_one
    have hreads := scanRunReads32_of_short hlen hclear hcnt hword
    rw [Nat.mod_eq_of_lt (show start < 2 ^ 32 by omega)] at hreads
    obtain ⟨bitLeft, hleft⟩ : ∃ n, 8 * btmp.btmpBytesLen - start = n + 1 :=
      ⟨8 * btmp.btmpBytesLen - start - 1, by omega⟩
    have hmem : btmp.btmpBytesLen ∈
        scanRunReads btmp cnt (8 * btmp.btmpBytesLen - start) (start + 1) 1 := by
      rw [hleft]
      rcases scanRun_last btmp cnt bitLeft (start + 1) 1 (by omega) with hmem | ⟨s, hs, hend⟩
      · rwa [show (start + 1 + bitLeft) / 8 = btmp.btmpBytesLen by omega] at hmem
      · refine absurd ⟨by omega, bit_of_scanRun (by omega) (fun c hc => ?_) hs⟩ (hnone s)
        rw [Nat.lt_one_iff.mp hc]
        exact hclear.2.1
    simp only [bitmapScanReads, if_neg hfull, bitIdxStart32, hstart, if_neg hone,
      Nat.mod_eq_of_lt (show start < 2 ^ 32 by omega), hreads]
    exact List.mem_append_right _ (List.mem_cons_of_mem _ hmem)

/-- A result that is no number below 0 is the bit that was found. -/
theorem eq_of_bitmapScanInt {s : ℕ} (hint : bitmapScanInt btmp cnt = s)
    (hlt : ∀ bitIdx, bitmapScan32 btmp cnt = some bitIdx → bitIdx < 2 ^ 32) :
    bitmapScan32 btmp cnt = some s ∧ s < 2 ^ 31 := by
  rw [bitmapScanInt] at hint
  cases hscan : bitmapScan32 btmp cnt with
  | none =>
      rw [hscan] at hint
      dsimp only at hint
      omega
  | some bitIdx =>
      rw [hscan] at hint
      dsimp only at hint
      have hword : (BitVec.ofNat 32 bitIdx).toNat = bitIdx := by
        rw [BitVec.toNat_ofNat]
        exact Nat.mod_eq_of_lt (hlt bitIdx hscan)
      rw [BitVec.toInt_eq_toNat_cond, hword] at hint
      have := hlt bitIdx hscan
      split at hint
      · exact ⟨congrArg some (by omega), by omega⟩
      · omega

theorem bitmapScanInt_of_some {s : ℕ} (hscan : bitmapScan32 btmp cnt = some s) (hs : s < 2 ^ 31) :
    bitmapScanInt btmp cnt = s := by
  have hword : (BitVec.ofNat 32 s).toNat = s := by
    rw [BitVec.toNat_ofNat]
    exact Nat.mod_eq_of_lt (by omega)
  rw [bitmapScanInt, hscan]
  dsimp only
  rw [BitVec.toInt_eq_toNat_of_lt (by omega), hword]

/-- With a first clear bit that has no number, the last loop finds nothing. -/
theorem bitmapScan32_far {start : ℕ} (hstart : btmp.FirstClear start) (hfar : 2 ^ 32 ≤ start)
    (hcnt : 1 < cnt) : bitmapScan32 btmp cnt = none := by
  obtain ⟨hne, hfound⟩ := hstart.found
  simp only [bitmapScan32, if_neg hne, bitIdxStart32, hfound, if_neg hcnt.ne']
  refine scanRun32_set hcnt.le fun j _ => hstart.2.2 _ ?_
  exact (Nat.mod_lt _ (by decide)).trans_le hfar

/-- `bitmap_scan` does what it should, for a bitmap of any length, exactly under
`Bitmap.ScanFits`. -/
theorem bitmapScan32_right_iff (btmp : Bitmap) (cnt : ℕ) (hcnt : 1 ≤ cnt) (hword : cnt < 2 ^ 32) :
    btmp.ScansRight cnt ↔ btmp.ScanFits cnt := by
  constructor
  · rintro ⟨hreads, hresult⟩
    have hne : scanByte btmp.bits btmp.btmpBytesLen 0 ≠ btmp.btmpBytesLen := by
      intro hfull
      have hmem : btmp.btmpBytesLen ∈ bitmapScanReads btmp cnt :=
        List.mem_append_left _ (mem_scanByteReads.mpr ⟨Nat.zero_le _, hfull.ge⟩)
      exact lt_irrefl _ (hreads _ hmem)
    obtain ⟨start, -, hfirst⟩ := exists_start hne
    have hstart : btmp.FirstClear start := hfirst
    refine ⟨start, hstart, ?_⟩
    rcases hresult with ⟨s, hs, hint⟩ | ⟨hnone, -⟩
    · refine Or.inl ⟨s, hs, ?_⟩
      rcases hcnt.eq_or_lt with rfl | hmore
      · have hle : s ≤ start := hs.2 hstart.run_one
        refine ⟨(eq_of_bitmapScanInt hint fun bitIdx hscan => ?_).2, by omega⟩
        rw [bitmapScan32_one hstart] at hscan
        have := Option.some.inj hscan
        omega
      · have hlt : start < 2 ^ 32 := by
          by_contra hfar
          rw [bitmapScanInt, bitmapScan32_far hstart (by omega) hmore] at hint
          dsimp only at hint
          omega
        have hrun := bitmapScan32_of_firstClear hstart hlt hmore hword
        have hrounds : btmp.rounds start ≤ 2 ^ 32 - (start + 1) := Nat.min_le_right _ _
        obtain ⟨hscan, hsmall⟩ := eq_of_bitmapScanInt hint fun bitIdx hscan => by
          have := scanRun_le (by omega) (hrun.symm.trans hscan)
          omega
        exact ⟨hsmall, scanRun_le (by omega) (hrun.symm.trans hscan)⟩
    · refine Or.inr ⟨hnone, ?_, ?_⟩
      · by_contra hshort
        exact lt_irrefl _ (hreads _ (mem_reads_of_not_run (by omega) hcnt hword hnone))
      · rintro rfl
        exact hnone start hstart.run_one
  · rintro ⟨start, hstart, hcase⟩
    -- behind 2 ^ 29 bytes there is no byte that could be read
    have hlong : 2 ^ 29 ≤ btmp.btmpBytesLen →
        ∀ j ∈ bitmapScanReads btmp cnt, j < btmp.btmpBytesLen := by
      intro hlen j hj
      rcases lt_or_mem_of_mem_reads hstart hj with hlt | ⟨-, hj⟩
      · exact hlt
      · exact (lt_of_mem_scanRunReads32 (Nat.mod_lt _ (by decide)) hj).trans_le hlen
    rcases hcase with ⟨s, hs, hsmall, hend⟩ | ⟨hnone, hlen, hone⟩
    · have hle := hstart.le_run hcnt hs.1
      rcases hcnt.eq_or_lt with rfl | hmore
      · have hge : s ≤ start := hs.2 hstart.run_one
        refine ⟨fun j hj => ?_, Or.inl ⟨s, hs, bitmapScanInt_of_some ?_ hsmall⟩⟩
        · exact (lt_or_mem_of_mem_reads hstart hj).resolve_right fun h => h.1 rfl
        · rw [bitmapScan32_one hstart, Nat.mod_eq_of_lt (by omega), Nat.le_antisymm hle hge]
      · have hnext : start + 1 ≠ s := by
          rintro rfl
          have hset := bit_before_least hs
          rw [hstart.2.1] at hset
          cases hset
        obtain ⟨hres, hreads⟩ := scanRun_least (btmp.rounds start) (start + 1) 1 hcnt hs
          (by omega) hend (by omega)
          (fun c hc => by rw [Nat.lt_one_iff.mp hc]; exact hstart.2.1) (by omega)
        refine ⟨?_, Or.inl ⟨s, hs, bitmapScanInt_of_some ?_ hsmall⟩⟩
        · rcases Nat.lt_or_ge btmp.btmpBytesLen (2 ^ 29) with hshort | hlen
          · intro j hj
            rcases lt_or_mem_of_mem_reads hstart hj with hlt | ⟨-, hj⟩
            · exact hlt
            · rw [scanRunReads32_of_short hshort hstart hcnt hword,
                ← (rounds_of_short hshort hstart).1] at hj
              exact hreads j hj
          · exact hlong hlen
        · rw [bitmapScan32_of_firstClear hstart (by omega) hmore hword, hres]
    · have hmore : 1 < cnt := by omega
      have hscan : bitmapScan32 btmp cnt = none := by
        rcases Nat.lt_or_ge start (2 ^ 32) with hlt | hfar
        · rw [bitmapScan32_of_firstClear hstart hlt hmore hword]
          cases hrun : scanRun btmp cnt (btmp.rounds start) (start + 1) 1 with
          | none => rfl
          | some s =>
              have hend := scanRun_le (by omega) hrun
              have hrounds : btmp.rounds start ≤ 2 ^ 32 - (start + 1) := Nat.min_le_right _ _
              refine absurd ⟨by omega, bit_of_scanRun (by omega) (fun c hc => ?_) hrun⟩ (hnone s)
              rw [Nat.lt_one_iff.mp hc]
              exact hstart.2.1
        · exact bitmapScan32_far hstart hfar hmore
      refine ⟨hlong hlen, Or.inr ⟨hnone, ?_⟩⟩
      rw [bitmapScanInt, hscan]

/-- In a bitmap of less than 2 ^ 29 bytes: exactly when there is a run whose first bit has a
number that fits in an `int`. -/
theorem bitmapScan32_right_iff_of_short (hlen : btmp.btmpBytesLen < 2 ^ 29) (hcnt : 1 ≤ cnt)
    (hword : cnt < 2 ^ 32) : btmp.ScansRight cnt ↔ ∃ s < 2 ^ 31, btmp.Run cnt s := by
  rw [bitmapScan32_right_iff btmp cnt hcnt hword]
  constructor
  · rintro ⟨start, -, ⟨s, hs, hsmall, -⟩ | ⟨-, hlong, -⟩⟩
    · exact ⟨s, hsmall, hs.1⟩
    · omega
  · rintro ⟨s₀, hs₀, hrun⟩
    obtain ⟨s, hs⟩ : ∃ s, IsLeast {s | btmp.Run cnt s} s := by
      classical
      exact ⟨Nat.find ⟨s₀, hrun⟩, Nat.find_spec ⟨s₀, hrun⟩, fun _ h => Nat.find_min' _ h⟩
    have hle : s ≤ s₀ := hs.2 hrun
    have hne : scanByte btmp.bits btmp.btmpBytesLen 0 ≠ btmp.btmpBytesLen :=
      fun hfull => not_run_of_full hfull hcnt s hs.1
    obtain ⟨start, -, hfirst⟩ := exists_start hne
    have hstart : btmp.FirstClear start := hfirst
    have hfit := hs.1.1
    have hbound := hstart.1
    have hrounds := (rounds_of_short hlen hstart).1
    exact ⟨start, hstart, Or.inl ⟨s, hs, by omega, by omega⟩⟩

/-- Two clear bits in a bitmap of one byte. -/
theorem bitmapScan32_right_iff_two :
    1 ≤ 2 ∧ 2 < 2 ^ 32 ∧ (⟨1, fun _ => 0xe7⟩ : Bitmap).ScansRight 2 := by
  refine ⟨by decide, by decide, (bitmapScan32_right_iff _ 2 (by decide) (by decide)).mpr ?_⟩
  refine ⟨3, ⟨by decide, by decide, by decide⟩, Or.inl ⟨3, ⟨⟨by decide, ?_⟩, fun s hs => ?_⟩, ?_⟩⟩
  · intro c hc
    interval_cases c <;> decide
  · by_contra hlt
    have hclear := hs.2 0 (by decide)
    have hsmall : s < 3 := by omega
    interval_cases s <;> exact absurd hclear (by decide)
  · decide

/-- A bitmap of one byte with its last bit clear, before a byte that is zero: the scan for
two bits returns 7, although there is no bit 8. -/
theorem not_bitmapScan32_right_last_bit :
    ¬ (⟨1, fun i => if i = 0 then 0x7f else 0⟩ : Bitmap).ScansRight 2 := by
  intro h
  exact absurd (h.reads 1 (by decide)) (by decide)

end Scan

end BochsOs
