import BochsOs.Shell.DescriptorCalls

/-!
# Writing to the console

`sys_write` copies what goes to the standard output into an array of 1024 bytes on the kernel
stack and prints that array as a string.  `Terminal` adds to the kernel what was printed and the
stack from the array on, and `Terminal.sysWrite` is `sys_write` with its output.

* `Terminal.wp_sysWrite`: with the console, `sys_write` does no more to the kernel than without.
* `prints_iff`: just the bytes of the buffer come out exactly when there are less than 1024
  of them and none is zero.

The lock of the console keeps the text of one call together and is left out.
-/

namespace BochsOs

open ByteMemory Suspend Suspend.Prog

/-! ## The code -/

/-- The kernel and its output. -/
structure Terminal where
  kernel : Kernel
  /-- The characters that `put_char` got, in order. -/
  text : List UInt8
  /-- The kernel stack, from `tmp_buf` of `sys_write` up. -/
  stack : Bytes

/-- The length of `tmp_buf`. -/
def tmpBufLen : ℕ := 1024

/-- The characters of a string literal. -/
def literal (s : String) : List UInt8 := s.toList.map fun c => UInt8.ofNat c.toNat

/-- The bytes of a buffer. -/
def bytesOf (buf : Bytes) (count : ℕ) : List UInt8 := (List.range count).map buf

namespace Terminal

/-- Code that prints nothing. -/
def onKernel {α : Type} (x : Prog Kernel α) : Prog Terminal α :=
  x.focus Terminal.kernel fun k s => { s with kernel := k }

/-- `put_char`, as far as what is printed goes. -/
def putChar (c : UInt8) : Prog Terminal Unit :=
  modify fun s => { s with text := s.text ++ [c] }

/-- `printk` and `console_put_str` of a literal. -/
def printk (s : String) : Prog Terminal Unit :=
  modify fun w => { w with text := w.text ++ literal s }

/-- The loop of `put_str` over the stack, at offset `ebx`, with `left` bytes of memory before
the end of the address space. -/
def putStr : (left ebx : ℕ) → Prog Terminal Unit
  | 0, _ => stop .undefined
  | left + 1, ebx => do
      let s ← read
      if s.stack ebx = 0 then return ()
      else
        putChar (s.stack ebx)
        putStr left (ebx + 1)

/-- `console_put_str(tmp_buf)`. -/
def consolePutStr : Prog Terminal Unit := putStr (2 ^ 32) 0

/-- `sys_write`. -/
def sysWrite (t : Transfer) (fd : ℤ) (buf : Bytes) (count : ℕ) : Prog Terminal ℤ := do
  if fd < 0 then
    printk "sys_write: fd error\n"
    return -1
  else if ← onKernel (isPipe fd.toNat) then onKernel (pipeWrite fd.toNat buf count)
  else if fd = 1 then
    -- `char tmp_buf[1024] = { 0 }` and `memcpy(tmp_buf, buf, count)`
    modify fun s => { s with stack := copy (fill s.stack 0 tmpBufLen 0) 0 buf 0 count }
    consolePutStr
    return asInt32 count
  else
    let globalFd ← onKernel (fdLocal2global fd.toNat)
    let s ← read
    if wantsWrite (s.kernel.fileTable globalFd).fdFlag then
      onKernel (fileWrite t globalFd buf count)
    else
      printk "sys_write: not allowed to write file without flag O_RDWR or O_WRONLY\n"
      return -1

end Terminal

/-- The standard output is the console, and a write to it prints the bytes of the buffer, returns
how many, and touches neither the kernel nor the stack behind `tmp_buf`, whatever was there. -/
def Prints (t : Transfer) (k : Kernel) (buf : Bytes) (count : ℕ) : Prop :=
  ∀ (text : List UInt8) (stack : Bytes), (Terminal.sysWrite t 1 buf count).succeeds
    (fun r s => r = count ∧ s.kernel = k ∧ s.text = text ++ bytesOf buf count ∧
      ∀ i, tmpBufLen ≤ i → s.stack i = stack i) ⟨k, text, stack⟩

/-! ## Printing a string -/

namespace Terminal

section Strings

variable {s : Terminal}

theorem wp_onKernel {α : Type} {x : Prog Kernel α} {Q : α → Terminal → Prop} :
    (onKernel x).wp Q s ↔ x.wp (fun a k => Q a { s with kernel := k }) s.kernel := by
  refine wp_focus ?_ ?_ ?_
  · exact fun _ _ => rfl
  · exact fun _ _ _ => rfl
  · exact fun _ => rfl

theorem succeeds_onKernel {α : Type} {x : Prog Kernel α} {Q : α → Terminal → Prop} :
    (onKernel x).succeeds Q s ↔ x.succeeds (fun a k => Q a { s with kernel := k }) s.kernel := by
  refine succeeds_focus ?_ ?_ ?_
  · exact fun _ _ => rfl
  · exact fun _ _ _ => rfl
  · exact fun _ => rfl

/-- The bytes on the stack from `ebx` on. -/
def bytesAt (stack : Bytes) (ebx n : ℕ) : List UInt8 := (List.range n).map fun i => stack (ebx + i)

theorem bytesAt_succ (stack : Bytes) (ebx n : ℕ) :
    bytesAt stack ebx (n + 1) = stack ebx :: bytesAt stack (ebx + 1) n := by
  rw [bytesAt, bytesAt, List.range_succ_eq_map, List.map_cons, List.map_map, Nat.add_zero]
  congr 1
  refine List.map_congr_left fun i _ => ?_
  simp only [Function.comp_apply]
  congr 1
  omega

/-- A string that ends before the memory does is printed. -/
theorem succeeds_putStr {left ebx n : ℕ} (hn : n < left) (hstr : ∀ i < n, s.stack (ebx + i) ≠ 0)
    (hend : s.stack (ebx + n) = 0) {Q : Unit → Terminal → Prop}
    (hQ : Q () { s with text := s.text ++ bytesAt s.stack ebx n }) : (putStr left ebx).succeeds Q s := by
  induction n generalizing left ebx s with
  | zero =>
      obtain ⟨left, rfl⟩ : ∃ m, left = m + 1 := ⟨left - 1, by omega⟩
      have hzero : s.stack ebx = 0 := hend
      rw [putStr, succeeds_bind, succeeds_read, if_pos hzero, succeeds_pure]
      simpa [bytesAt] using hQ
  | succ n ih =>
      obtain ⟨left, rfl⟩ : ∃ m, left = m + 1 := ⟨left - 1, by omega⟩
      have hfirst : s.stack ebx ≠ 0 := hstr 0 (Nat.succ_pos n)
      rw [putStr, succeeds_bind, succeeds_read, if_neg hfirst, succeeds_bind, putChar,
        succeeds_modify]
      refine ih (by omega) ?_ ?_ ?_
      · intro i hi
        have := hstr (i + 1) (by omega)
        rwa [show ebx + (i + 1) = ebx + 1 + i by omega] at this
      · rwa [show ebx + (n + 1) = ebx + 1 + n by omega] at hend
      · rw [bytesAt_succ] at hQ
        simpa only [List.append_assoc, List.singleton_append] using hQ

/-- What is printed is the text up to the first zero. -/
theorem wp_putStr {left ebx : ℕ} :
    (putStr left ebx).wp (fun _ s' => ∃ n, (∀ i < n, s.stack (ebx + i) ≠ 0) ∧
      s.stack (ebx + n) = 0 ∧ s' = { s with text := s.text ++ bytesAt s.stack ebx n }) s := by
  induction left generalizing ebx s with
  | zero => trivial
  | succ left ih =>
      rw [putStr, wp_bind, wp_read]
      by_cases hfirst : s.stack ebx = 0
      · rw [if_pos hfirst, wp_pure]
        exact ⟨0, fun i hi => absurd hi (Nat.not_lt_zero i), hfirst, by simp [bytesAt]⟩
      · rw [if_neg hfirst, wp_bind, putChar, wp_modify]
        refine wp_mono ih ?_
        rintro - _ ⟨n, hstr, hend, rfl⟩
        refine ⟨n + 1, fun i hi => ?_, ?_, ?_⟩
        · rcases Nat.eq_zero_or_pos i with rfl | hpos
          · exact hfirst
          · have := hstr (i - 1) (by omega)
            rwa [show ebx + 1 + (i - 1) = ebx + i by omega] at this
        · rwa [show ebx + 1 + n = ebx + (n + 1) by omega] at hend
        · rw [bytesAt_succ]
          simp only [List.append_assoc, List.singleton_append]

end Strings

/-! ## The call -/

section Call

variable {t : Transfer} {buf : Bytes} {count : ℕ}

/-- With the console, `sys_write` does no more to the kernel than without. -/
theorem wp_sysWrite {fd : ℤ} (hcount : fd = 1 → count ≤ tmpBufLen) {Q : ℤ → Kernel → Prop}
    {s : Terminal} (h : (BochsOs.sysWrite t fd buf count).wp Q s.kernel) :
    (Terminal.sysWrite t fd buf count).wp (fun r s' => Q r s'.kernel) s := by
  unfold Terminal.sysWrite
  unfold BochsOs.sysWrite at h
  by_cases hneg : fd < 0
  · rw [if_pos hneg] at h ⊢
    exact h
  · rw [if_neg hneg] at h ⊢
    rw [wp_bind] at h ⊢
    rw [wp_onKernel]
    refine wp_mono h ?_
    intro pipe k hk
    cases pipe with
    | true =>
        rw [if_pos rfl] at hk ⊢
        exact wp_onKernel.mpr hk
    | false =>
        rw [if_neg Bool.false_ne_true] at hk ⊢
        by_cases hone : fd = 1
        · have hle := hcount hone
          rw [if_pos hone] at hk ⊢
          rw [if_neg (by simpa [tmpBufLen] using hle)] at hk
          rw [wp_bind, wp_modify, wp_bind, consolePutStr]
          refine wp_mono wp_putStr ?_
          rintro - _ ⟨n, -, -, rfl⟩
          rw [wp_pure, asInt32, if_pos (by simp only [tmpBufLen] at hle; omega)]
          exact hk
        · rw [if_neg hone] at hk ⊢
          rw [wp_bind] at hk ⊢
          rw [wp_onKernel]
          refine wp_mono hk ?_
          intro g k' hk'
          rw [wp_bind, wp_read] at hk' ⊢
          dsimp only
          split at hk'
          next hwants =>
            rw [if_pos hwants]
            exact wp_onKernel.mpr hk'
          next hwants =>
            rw [if_neg hwants]
            exact hk'

/-- `tmp_buf` and what lies above it when it is printed. -/
def stackImage (stack buf : Bytes) (count : ℕ) : Bytes :=
  copy (fill stack 0 tmpBufLen 0) 0 buf 0 count

theorem stackImage_inside {stack : Bytes} {i : ℕ} (hi : i < count) :
    stackImage stack buf count i = buf i := by
  rw [stackImage, copy_inside (Nat.zero_le i) (by omega), Nat.sub_zero, Nat.zero_add]

theorem stackImage_zero {stack : Bytes} {i : ℕ} (hi : count ≤ i) (hlt : i < tmpBufLen) :
    stackImage stack buf count i = 0 := by
  rw [stackImage, copy_outside (Or.inr (by omega)), fill_inside (Nat.zero_le i) (by omega)]

theorem stackImage_above {stack : Bytes} {i : ℕ} (hi : count ≤ i) (hge : tmpBufLen ≤ i) :
    stackImage stack buf count i = stack i := by
  rw [stackImage, copy_outside (Or.inr (by omega)), fill_outside (Or.inr (by omega))]

/-- A write to the console fills `tmp_buf` and prints it. -/
theorem succeeds_stdout {k : Kernel} {g : ℕ} (hentry : k.Entry 1 g) (hfile : ¬ k.PipeEntry g)
    {text : List UInt8} {stack : Bytes} {Q : ℤ → Terminal → Prop} :
    (Terminal.sysWrite t 1 buf count).succeeds Q ⟨k, text, stack⟩ ↔
      consolePutStr.succeeds (fun _ s => Q (asInt32 count) s)
        ⟨k, text, stackImage stack buf count⟩ := by
  unfold Terminal.sysWrite
  rw [if_neg (by decide), succeeds_bind, succeeds_onKernel, (isPipe_entry_same hentry).succeeds_iff,
    succeeds_pure, decide_eq_false hfile, if_neg Bool.false_ne_true, if_pos rfl, succeeds_bind,
    succeeds_modify, succeeds_bind]
  exact Iff.rfl

/-- Bytes that fit into `tmp_buf` with a zero behind them come out. -/
theorem prints_of_lt {k : Kernel} {g : ℕ} (hentry : k.Entry 1 g) (hfile : ¬ k.PipeEntry g)
    (hcount : count < tmpBufLen) (hzero : ∀ i < count, buf i ≠ 0) : Prints t k buf count := by
  intro text stack
  rw [succeeds_stdout hentry hfile]
  refine succeeds_putStr (n := count) (by simp only [tmpBufLen] at hcount; omega) ?_ ?_ ?_
  · intro i hi
    rw [Nat.zero_add]
    dsimp only
    rw [stackImage_inside hi]
    exact hzero i hi
  · rw [Nat.zero_add]
    exact stackImage_zero le_rfl hcount
  · refine ⟨?_, rfl, ?_, fun i hi => stackImage_above (by omega) hi⟩
    · simp only [tmpBufLen] at hcount
      rw [asInt32, if_pos (by omega)]
    · dsimp only
      congr 1
      refine List.map_congr_left fun i hi => ?_
      rw [Nat.zero_add]
      exact stackImage_inside (List.mem_range.mp hi)

/-- The output of a write that prints its buffer ends at the first zero of the stack. -/
theorem text_of_prints {k : Kernel} {g : ℕ} (hentry : k.Entry 1 g) (hfile : ¬ k.PipeEntry g)
    (h : Prints t k buf count) (stack : Bytes) :
    (∀ i < count, stackImage stack buf count i ≠ 0) ∧ stackImage stack buf count count = 0 ∧
      ∀ i, tmpBufLen ≤ i → stackImage stack buf count i = stack i := by
  have hsucc := (succeeds_stdout hentry hfile).mp (h [] stack)
  obtain ⟨_, _, hret, -, -, htext, habove⟩ := returns_of_succeeds hsucc
  obtain ⟨n, hstr, hend, rfl⟩ := wp_iff_returns.mp wp_putStr _ _ hret
  have hlen := congrArg List.length htext
  simp only [List.nil_append, bytesAt, bytesOf, List.length_map, List.length_range] at hlen
  subst hlen
  simp only [Nat.zero_add] at hstr hend
  exact ⟨hstr, hend, habove⟩

/-- A longer buffer spoils the stack, and one of 1024 bytes has no end. -/
theorem lt_of_prints {k : Kernel} {g : ℕ} (hentry : k.Entry 1 g) (hfile : ¬ k.PipeEntry g)
    (h : Prints t k buf count) : count < tmpBufLen := by
  by_contra hge
  -- a stack that has neither a zero nor the next byte of the buffer behind the array
  obtain ⟨-, hend, habove⟩ := text_of_prints hentry hfile h fun i =>
    if count = tmpBufLen then 1 else buf i + 1
  rcases Nat.eq_or_lt_of_le (Nat.not_lt.mp hge) with heq | hlt
  · rw [stackImage_above le_rfl heq.le, if_pos heq.symm] at hend
    exact absurd hend (by decide)
  · have hspoilt := habove tmpBufLen le_rfl
    rw [stackImage_inside hlt, if_neg hlt.ne'] at hspoilt
    exact absurd hspoilt (by simp)

end Call

end Terminal

/-- A write to the console prints the bytes of the buffer exactly when there are less than 1024
and none is zero. -/
theorem prints_iff (t : Transfer) (k : Kernel) (g : ℕ) (buf : Bytes) (count : ℕ)
    (hentry : k.Entry 1 g) (hfile : ¬ k.PipeEntry g) :
    Prints t k buf count ↔ count < 1024 ∧ ∀ i < count, buf i ≠ 0 := by
  constructor
  · intro h
    refine ⟨Terminal.lt_of_prints hentry hfile h, fun i hi => ?_⟩
    have hstr := (Terminal.text_of_prints hentry hfile h fun _ => 0).1 i hi
    rwa [Terminal.stackImage_inside hi] at hstr
  · rintro ⟨hcount, hzero⟩
    exact Terminal.prints_of_lt hentry hfile hcount hzero

theorem smallMachine_stdout : smallMachine.Entry 1 1 ∧ ¬ smallMachine.PipeEntry 1 :=
  ⟨⟨by decide, by decide, rfl, by decide⟩, by decide⟩

/-- A buffer full of the letter a. -/
def letters : Bytes := fun _ => 97

theorem letters_ne_zero (i : ℕ) : letters i ≠ 0 := by
  change (97 : UInt8) ≠ 0
  decide

/-- Ten letters come out. -/
theorem prints_iff_letters : (smallMachine.Entry 1 1 ∧ ¬ smallMachine.PipeEntry 1) ∧
    Prints .repeated smallMachine letters 10 := by
  have hiff := prints_iff .repeated smallMachine 1 letters 10 smallMachine_stdout.1
    smallMachine_stdout.2
  exact ⟨smallMachine_stdout, hiff.mpr ⟨by decide, fun i _ => letters_ne_zero i⟩⟩

/-- A block of 1024 letters, as `cat` writes it. -/
theorem not_prints_block : ¬ Prints .repeated smallMachine letters 1024 :=
  mt (Terminal.lt_of_prints smallMachine_stdout.1 smallMachine_stdout.2) (by decide)

end BochsOs
