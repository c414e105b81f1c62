import Mathlib.Tactic

/-!
# Byte memories

A region of memory, a disk and an I/O buffer are all functions from byte
addresses to bytes.  `copy` and `fill` are `memcpy` and `memset` between such
functions; `readU32` and `writeU32` are the little-endian 32-bit accesses of an
x86 processor, and `wordImage` is a table of such words.  Everything else (a record at
an offset, say) is read through these.

The lemmas come in two kinds: what an access inside the touched range sees, and
that an access outside it sees the old memory.
-/

namespace ByteMemory

/-- The bytes found at each address. -/
abbrev Bytes := ℕ → UInt8

/-- `memcpy`: `len` bytes of `src` from offset `source` on, put at `target`. -/
def copy (dst : Bytes) (target : ℕ) (src : Bytes) (source len : ℕ) : Bytes :=
  fun a => if target ≤ a ∧ a < target + len then src (source + (a - target)) else dst a

/-- `memset`: `len` bytes from `target` on become `value`. -/
def fill (dst : Bytes) (target len : ℕ) (value : UInt8) : Bytes :=
  fun a => if target ≤ a ∧ a < target + len then value else dst a

/-- The 32-bit word stored at `a`, least significant byte first. -/
def readU32 (m : Bytes) (a : ℕ) : ℕ :=
  (m a).toNat + 256 * ((m (a + 1)).toNat + 256 * ((m (a + 2)).toNat + 256 * (m (a + 3)).toNat))

/-- Store the word `v` at `a`; the bits of `v` above the 32nd are lost. -/
def writeU32 (m : Bytes) (a v : ℕ) : Bytes :=
  fun x => if a ≤ x ∧ x < a + 4 then UInt8.ofNat (v / 256 ^ (x - a)) else m x

/-- A table of 32-bit words as bytes. -/
def wordImage (w : ℕ → ℕ) : Bytes := fun a => UInt8.ofNat (w (a / 4) / 256 ^ (a % 4))

/-! ## `copy` and `fill` -/

theorem copy_inside {dst src : Bytes} {target source len a : ℕ}
    (hlow : target ≤ a) (hhigh : a < target + len) :
    copy dst target src source len a = src (source + (a - target)) :=
  if_pos ⟨hlow, hhigh⟩

theorem copy_outside {dst src : Bytes} {target source len a : ℕ}
    (h : a < target ∨ target + len ≤ a) : copy dst target src source len a = dst a :=
  if_neg (by omega)

@[simp] theorem copy_add {dst src : Bytes} {target source len i : ℕ} (hi : i < len) :
    copy dst target src source len (target + i) = src (source + i) := by
  rw [copy_inside (by omega) (by omega)]
  congr 1
  omega

@[simp] theorem copy_zero_len (dst src : Bytes) (target source : ℕ) :
    copy dst target src source 0 = dst := by
  funext a
  exact copy_outside (by omega)

/-- A copy depends only on the bytes it moves. -/
theorem copy_congr {dst src src' : Bytes} {target source source' len : ℕ}
    (h : ∀ i < len, src (source + i) = src' (source' + i)) :
    copy dst target src source len = copy dst target src' source' len := by
  funext a
  unfold copy
  split
  next ha => exact h _ (by omega)
  next => rfl

/-- Of two copies to the same place the later one is seen. -/
@[simp] theorem copy_copy_same (dst src src' : Bytes) (target source source' len : ℕ) :
    copy (copy dst target src source len) target src' source' len =
      copy dst target src' source' len := by
  funext a
  unfold copy
  split <;> rfl

/-- Two copies from and to adjacent places are one copy. -/
theorem copy_copy_append (dst src : Bytes) (target source len len' : ℕ) :
    copy (copy dst target src source len) (target + len) src (source + len) len' =
      copy dst target src source (len + len') := by
  funext a
  by_cases hfirst : target ≤ a ∧ a < target + len
  · rw [copy_outside (by omega), copy_inside hfirst.1 hfirst.2, copy_inside hfirst.1 (by omega)]
  · by_cases hsecond : target + len ≤ a ∧ a < target + len + len'
    · rw [copy_inside hsecond.1 hsecond.2, copy_inside (by omega) (by omega)]
      congr 1
      omega
    · rw [copy_outside (by omega), copy_outside (by omega), copy_outside (by omega)]

theorem fill_inside {dst : Bytes} {target len a : ℕ} {value : UInt8}
    (hlow : target ≤ a) (hhigh : a < target + len) : fill dst target len value a = value :=
  if_pos ⟨hlow, hhigh⟩

theorem fill_outside {dst : Bytes} {target len a : ℕ} {value : UInt8}
    (h : a < target ∨ target + len ≤ a) : fill dst target len value a = dst a :=
  if_neg (by omega)

/-! ## Words -/

/-- A word depends only on the four bytes it is read from. -/
theorem readU32_congr {m m' : Bytes} {a a' : ℕ} (h : ∀ i < 4, m (a + i) = m' (a' + i)) :
    readU32 m a = readU32 m' a' := by
  have h0 := h 0 (by omega)
  have h1 := h 1 (by omega)
  have h2 := h 2 (by omega)
  have h3 := h 3 (by omega)
  simp only [Nat.add_zero] at h0
  simp only [readU32, h0, h1, h2, h3]

theorem readU32_lt (m : Bytes) (a : ℕ) : readU32 m a < 2 ^ 32 := by
  have h0 := (m a).toNat_lt
  have h1 := (m (a + 1)).toNat_lt
  have h2 := (m (a + 2)).toNat_lt
  have h3 := (m (a + 3)).toNat_lt
  unfold readU32
  omega

theorem readU32_writeU32 (m : Bytes) (a v : ℕ) :
    readU32 (writeU32 m a v) a = v % 2 ^ 32 := by
  have hbyte : ∀ i < 4, (writeU32 m a v (a + i)).toNat = v / 256 ^ i % 256 := by
    intro i hi
    have hin : a ≤ a + i ∧ a + i < a + 4 := by omega
    simp [writeU32, hin]
  have h0 := hbyte 0 (by omega)
  have h1 := hbyte 1 (by omega)
  have h2 := hbyte 2 (by omega)
  have h3 := hbyte 3 (by omega)
  simp only [Nat.add_zero] at h0
  simp only [readU32, h0, h1, h2, h3]
  norm_num
  omega

theorem writeU32_outside {m : Bytes} {a v x : ℕ} (h : x < a ∨ a + 4 ≤ x) :
    writeU32 m a v x = m x :=
  if_neg (by omega)

theorem readU32_writeU32_of_disjoint {m : Bytes} {a b v : ℕ} (h : b + 4 ≤ a ∨ a + 4 ≤ b) :
    readU32 (writeU32 m a v) b = readU32 m b :=
  readU32_congr fun _ hi => writeU32_outside (by omega)

theorem readU32_copy_inside {dst src : Bytes} {target source len a : ℕ}
    (hlow : target ≤ a) (hhigh : a + 4 ≤ target + len) :
    readU32 (copy dst target src source len) a = readU32 src (source + (a - target)) :=
  readU32_congr fun i hi => by
    rw [copy_inside (by omega) (by omega)]
    congr 1
    omega

theorem readU32_wordImage (w : ℕ → ℕ) (i : ℕ) : readU32 (wordImage w) (4 * i) = w i % 2 ^ 32 := by
  have hbyte : ∀ j < 4, (wordImage w (4 * i + j)).toNat = w i / 256 ^ j % 256 := by
    intro j hj
    have hdiv : (4 * i + j) / 4 = i := by omega
    have hmod : (4 * i + j) % 4 = j := by omega
    simp [wordImage, hdiv, hmod]
  have h0 := hbyte 0 (by omega)
  have h1 := hbyte 1 (by omega)
  have h2 := hbyte 2 (by omega)
  have h3 := hbyte 3 (by omega)
  simp only [Nat.add_zero] at h0
  simp only [readU32, h0, h1, h2, h3]
  norm_num
  omega

end ByteMemory
