import BochsOs.Library.Strings

/-!
# The functions on strings

`strlen`, `strcpy`, `strcat`, `strcmp`, `strchr` and `strrchr` of `lib/string.c`, byte by byte on
memory.  Each is followed by what it does to strings.  A loop makes at most `fuel` rounds; `none`
is a loop that is not over by then, so that a string without an end is never read as one.
-/

namespace BochsOs.Bytewise

open ByteMemory

variable {m src dst : Bytes} {a b d fuel : ℕ} {s t u : List UInt8} {c : UInt8}

/-! ## `strlen` -/

/-- `strlen`. -/
def strlen (m : Bytes) : (fuel a : ℕ) → Option ℕ
  | 0, _ => none
  | fuel + 1, a => if m a = 0 then some 0 else (strlen m fuel (a + 1)).map (· + 1)

theorem strlen_of_strAt (h : StrAt m a s) (hfuel : s.length < fuel) :
    strlen m fuel a = some s.length := by
  induction fuel generalizing a s with
  | zero => exact absurd hfuel (Nat.not_lt_zero _)
  | succ fuel ih =>
      rw [strlen]
      cases s with
      | nil =>
          rw [if_pos (StrAt.nil_iff.mp h)]
          rfl
      | cons c s =>
          obtain ⟨hc, hne, hs⟩ := StrAt.cons_iff.mp h
          rw [if_neg (by rwa [hc]), ih hs (Nat.lt_of_succ_lt_succ hfuel)]
          rfl

/-! ## `strcpy` and `strcat` -/

/-- The loop `while ((*dst++ = *src++))`. -/
def strcpy (src : Bytes) : (fuel : ℕ) → (dst : Bytes) → (d a : ℕ) → Option Bytes
  | 0, _, _, _ => none
  | fuel + 1, dst, d, a =>
      let dst := Function.update dst d (src a)
      if src a ≠ 0 then strcpy src fuel dst (d + 1) (a + 1) else some dst

/-- `strcat`. -/
def strcat (src : Bytes) (fuel : ℕ) (dst : Bytes) (d a : ℕ) : Option Bytes :=
  (strlen dst fuel d).bind fun n => strcpy src fuel dst (d + n) a

theorem strcpy_of_strAt (h : StrAt src a s) (hfuel : s.length < fuel) :
    strcpy src fuel dst d a = some (store dst d (s ++ [0])) := by
  induction fuel generalizing dst d a s with
  | zero => exact absurd hfuel (Nat.not_lt_zero _)
  | succ fuel ih =>
      rw [strcpy]
      cases s with
      | nil =>
          rw [StrAt.nil_iff.mp h, if_neg (fun hne => hne rfl)]
          rfl
      | cons c s =>
          obtain ⟨rfl, hne, hs⟩ := StrAt.cons_iff.mp h
          rw [if_pos hne, ih hs (Nat.lt_of_succ_lt_succ hfuel)]
          rfl

theorem strcat_of_strAt (hdst : StrAt dst d s) (hsrc : StrAt src a t) (hs : s.length < fuel)
    (ht : t.length < fuel) :
    ∃ dst', strcat src fuel dst d a = some dst' ∧ StrAt dst' d (s ++ t) := by
  refine ⟨_, ?_, hdst.store_append_nul hsrc.nonzero⟩
  rw [strcat, strlen_of_strAt hdst hs, Option.bind_some, strcpy_of_strAt hsrc ht]

/-! ## `strcmp` -/

/-- `strcmp`; characters are signed. -/
def strcmp (m m' : Bytes) : (fuel a b : ℕ) → Option ℤ
  | 0, _, _ => none
  | fuel + 1, a, b =>
      if m a ≠ 0 ∧ m a = m' b then strcmp m m' fuel (a + 1) (b + 1)
      else some (if (m a).toInt8 < (m' b).toInt8 then -1 else if (m' b).toInt8 < (m a).toInt8 then 1 else 0)

/-- The result is zero for equal bytes only. -/
theorem sign_eq_zero_iff (x y : UInt8) :
    ((if x.toInt8 < y.toInt8 then -1 else if y.toInt8 < x.toInt8 then 1 else 0 : ℤ) = 0) ↔ x = y := by
  constructor
  · intro h
    have heq : x.toInt8 = y.toInt8 := by
      split_ifs at h with hlt hgt
      · exact absurd h one_ne_zero
      · exact Int8.le_antisymm (Int8.not_lt.mp hgt) (Int8.not_lt.mp hlt)
    rw [← UInt8.toUInt8_toInt8 x, heq, UInt8.toUInt8_toInt8]
  · rintro rfl
    rw [if_neg Int8.lt_irrefl, if_neg Int8.lt_irrefl]

theorem strcmp_of_strAt {m' : Bytes} (h : StrAt m a s) (h' : StrAt m' b t) (hfuel : s.length < fuel) :
    ∃ r, strcmp m m' fuel a b = some r ∧ (r = 0 ↔ s = t) := by
  induction fuel generalizing a b s t with
  | zero => exact absurd hfuel (Nat.not_lt_zero _)
  | succ fuel ih =>
      rw [strcmp]
      by_cases hsame : m a ≠ 0 ∧ m a = m' b
      · rw [if_pos hsame]
        cases s with
        | nil => exact absurd (StrAt.nil_iff.mp h) hsame.1
        | cons c s =>
            obtain ⟨rfl, -, hs⟩ := StrAt.cons_iff.mp h
            cases t with
            | nil => exact absurd (hsame.2.trans (StrAt.nil_iff.mp h')) hsame.1
            | cons c' t =>
                obtain ⟨rfl, -, ht⟩ := StrAt.cons_iff.mp h'
                obtain ⟨r, hr, hzero⟩ := ih hs ht (Nat.lt_of_succ_lt_succ hfuel)
                exact ⟨r, hr, by rw [hzero, hsame.2, List.cons_inj_right]⟩
      · rw [if_neg hsame]
        refine ⟨_, rfl, (sign_eq_zero_iff _ _).trans ?_⟩
        cases s with
        | nil =>
            rw [StrAt.nil_iff.mp h]
            cases t with
            | nil => exact iff_of_true (StrAt.nil_iff.mp h').symm rfl
            | cons c' t =>
                obtain ⟨rfl, hne, -⟩ := StrAt.cons_iff.mp h'
                exact iff_of_false hne.symm (List.cons_ne_nil _ _).symm
        | cons c s =>
            obtain ⟨rfl, hne, -⟩ := StrAt.cons_iff.mp h
            have hdiff : m a ≠ m' b := fun heq => hsame ⟨hne, heq⟩
            refine iff_of_false hdiff ?_
            rintro rfl
            exact hdiff (StrAt.cons_iff.mp h').1.symm

/-! ## `strchr` and `strrchr` -/

/-- `strchr`; the inner `none` is `NULL`. -/
def strchr (m : Bytes) (c : UInt8) : (fuel a : ℕ) → Option (Option ℕ)
  | 0, _ => none
  | fuel + 1, a =>
      if m a = 0 then some none
      else if m a = c then some (some a)
      else strchr m c fuel (a + 1)

/-- The loop of `strrchr`; `ret` is the last place so far. -/
def strrchrLoop (m : Bytes) (c : UInt8) : (fuel a : ℕ) → (ret : Option ℕ) → Option (Option ℕ)
  | 0, _, _ => none
  | fuel + 1, a, ret =>
      if m a ≠ 0 then strrchrLoop m c fuel (a + 1) (if m a = c then some a else ret)
      else some ret

/-- `strrchr`. -/
def strrchr (m : Bytes) (c : UInt8) (fuel a : ℕ) : Option (Option ℕ) := strrchrLoop m c fuel a none

theorem strchr_of_not_mem (h : StrAt m a s) (hc : c ∉ s) (hfuel : s.length < fuel) :
    strchr m c fuel a = some none := by
  induction fuel generalizing a s with
  | zero => exact absurd hfuel (Nat.not_lt_zero _)
  | succ fuel ih =>
      rw [strchr]
      cases s with
      | nil => rw [if_pos (StrAt.nil_iff.mp h)]
      | cons c' s =>
          obtain ⟨hc', hne, hs⟩ := StrAt.cons_iff.mp h
          rw [List.mem_cons, not_or] at hc
          rw [hc', if_neg hne, if_neg (Ne.symm hc.1), ih hs hc.2 (Nat.lt_of_succ_lt_succ hfuel)]

/-- The first occurrence. -/
theorem strchr_of_append (h : StrAt m a (s ++ c :: t)) (hc : c ∉ s) (hfuel : s.length < fuel) :
    strchr m c fuel a = some (some (a + s.length)) := by
  induction fuel generalizing a s with
  | zero => exact absurd hfuel (Nat.not_lt_zero _)
  | succ fuel ih =>
      rw [strchr]
      cases s with
      | nil =>
          obtain ⟨hc', hne, -⟩ := StrAt.cons_iff.mp h
          rw [hc', if_neg hne, if_pos rfl]
          rfl
      | cons c' s =>
          obtain ⟨hc', hne, hs⟩ := StrAt.cons_iff.mp h
          rw [List.mem_cons, not_or] at hc
          rw [hc', if_neg hne, if_neg (Ne.symm hc.1), ih hs hc.2 (Nat.lt_of_succ_lt_succ hfuel),
            List.length_cons, Nat.add_assoc, Nat.add_comm 1]

theorem strrchrLoop_of_not_mem {ret : Option ℕ} (h : StrAt m a s) (hc : c ∉ s)
    (hfuel : s.length < fuel) : strrchrLoop m c fuel a ret = some ret := by
  induction fuel generalizing a s with
  | zero => exact absurd hfuel (Nat.not_lt_zero _)
  | succ fuel ih =>
      rw [strrchrLoop]
      cases s with
      | nil => rw [if_neg (fun hne => hne (StrAt.nil_iff.mp h))]
      | cons c' s =>
          obtain ⟨hc', hne, hs⟩ := StrAt.cons_iff.mp h
          rw [List.mem_cons, not_or] at hc
          rw [hc', if_pos hne, if_neg (Ne.symm hc.1), ih hs hc.2 (Nat.lt_of_succ_lt_succ hfuel)]

/-- The last occurrence. -/
theorem strrchrLoop_of_append {ret : Option ℕ} (h : StrAt m a (s ++ c :: t)) (hc : c ∉ t)
    (hfuel : (s ++ c :: t).length < fuel) :
    strrchrLoop m c fuel a ret = some (some (a + s.length)) := by
  induction fuel generalizing a s ret with
  | zero => exact absurd hfuel (Nat.not_lt_zero _)
  | succ fuel ih =>
      rw [strrchrLoop]
      cases s with
      | nil =>
          obtain ⟨hc', hne, hs⟩ := StrAt.cons_iff.mp h
          rw [hc', if_pos hne, if_pos rfl,
            strrchrLoop_of_not_mem hs hc (Nat.lt_of_succ_lt_succ hfuel)]
          rfl
      | cons c' s =>
          obtain ⟨hc', hne, hs⟩ := StrAt.cons_iff.mp h
          rw [hc', if_pos hne, ih hs (Nat.lt_of_succ_lt_succ hfuel), List.length_cons,
            Nat.add_assoc, Nat.add_comm 1]

theorem strrchr_of_append (h : StrAt m a (s ++ c :: t)) (hc : c ∉ t)
    (hfuel : (s ++ c :: t).length < fuel) : strrchr m c fuel a = some (some (a + s.length)) :=
  strrchrLoop_of_append h hc hfuel

/-! ## Scanning -/

/-- The loop `while (*p == c) p++`. -/
def skip (m : Bytes) (c : UInt8) : (fuel a : ℕ) → Option ℕ
  | 0, _ => none
  | fuel + 1, a => if m a = c then skip m c fuel (a + 1) else some a

/-- The loop `while (*p && *p != c) p++`. -/
def skipTo (m : Bytes) (c : UInt8) : (fuel a : ℕ) → Option ℕ
  | 0, _ => none
  | fuel + 1, a => if m a ≠ 0 ∧ m a ≠ c then skipTo m c fuel (a + 1) else some a

/-- The zero at the end stops the first loop, unless it is what the loop skips. -/
theorem skip_of_strAt (h : StrAt m a s) (hc : c ≠ 0 ∨ s ≠ []) (hfuel : s.length < fuel) :
    skip m c fuel a = some (a + (s.takeWhile (· = c)).length) := by
  induction fuel generalizing a s with
  | zero => exact absurd hfuel (Nat.not_lt_zero _)
  | succ fuel ih =>
      rw [skip]
      cases s with
      | nil =>
          rw [StrAt.nil_iff.mp h, if_neg (hc.resolve_right fun hne => hne rfl).symm]
          rfl
      | cons c' s =>
          obtain ⟨hc', hne, hs⟩ := StrAt.cons_iff.mp h
          rw [hc']
          by_cases heq : c' = c
          · rw [if_pos heq, ih hs (Or.inl (heq ▸ hne)) (Nat.lt_of_succ_lt_succ hfuel),
              List.takeWhile_cons_of_pos (by simpa using heq), List.length_cons, Nat.add_assoc,
              Nat.add_comm 1]
          · rw [if_neg heq, List.takeWhile_cons_of_neg (by simpa using heq)]
            rfl

theorem skipTo_of_strAt (h : StrAt m a s) (hfuel : s.length < fuel) :
    skipTo m c fuel a = some (a + (s.takeWhile (· ≠ c)).length) := by
  induction fuel generalizing a s with
  | zero => exact absurd hfuel (Nat.not_lt_zero _)
  | succ fuel ih =>
      rw [skipTo]
      cases s with
      | nil =>
          rw [if_neg fun hne => hne.1 (StrAt.nil_iff.mp h)]
          rfl
      | cons c' s =>
          obtain ⟨hc', hne, hs⟩ := StrAt.cons_iff.mp h
          rw [hc']
          by_cases heq : c' = c
          · rw [if_neg fun hboth => hboth.2 heq, List.takeWhile_cons_of_neg (by simpa using heq)]
            rfl
          · rw [if_pos ⟨hne, heq⟩, ih hs (Nat.lt_of_succ_lt_succ hfuel),
              List.takeWhile_cons_of_pos (by simpa using heq), List.length_cons, Nat.add_assoc,
              Nat.add_comm 1]

end BochsOs.Bytewise
