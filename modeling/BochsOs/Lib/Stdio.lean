import BochsOs.Kernel.State
import BochsOs.Lib.String

/-!
# Formatted output

`itoa`, `vsprintf` and `sprintf` of `lib/stdio.c`.  The
buffer is at address `0`, and `Out` is the buffer with the pointer `bp` that is moved along.  An
argument list is the list of what `va_arg` gives; strings are outside of the buffer.  `none` is a
call that does not return: a panic, a failed assertion, or a string without an end.
-/

namespace BochsOs.Stdio

open ByteMemory Bytewise

/-- The buffer and the place of the next character. -/
structure Out where
  mem : Bytes
  bp : ℕ

namespace Out

/-- `*(bp++) = c`. -/
def put (o : Out) (c : UInt8) : Out := ⟨Function.update o.mem o.bp c, o.bp + 1⟩

/-- `strcpy(bp, s)` and `bp += strlen(s)`. -/
def copyStr (o : Out) (s : List UInt8) : Out :=
  ⟨store o.mem o.bp (s ++ [0]), o.bp + s.length⟩

/-- The characters of `s`, one after the other. -/
def append (o : Out) (s : List UInt8) : Out := ⟨store o.mem o.bp s, o.bp + s.length⟩

end Out

/-- `m + '0'` or `m - 10 + 'a'`. -/
def digitChar (m : ℕ) : UInt8 := if m < 10 then UInt8.ofNat (m + 48) else UInt8.ofNat (m - 10 + 97)

/-- The recursion of `itoa`, at most `fuel` calls deep. -/
def itoaRec (base : ℕ) : (fuel value : ℕ) → Out → Option Out
  | 0, _, _ => none
  | fuel + 1, value, o =>
      let m := value % base
      let i := value / base
      if i ≠ 0 then (itoaRec base fuel i o).map (·.put (digitChar m))
      else some (o.put (digitChar m))

/-- `itoa` of a 32-bit value. -/
def itoa (value base : ℕ) (o : Out) : Option Out := itoaRec base 32 value o

/-- What `va_arg` gives. -/
inductive Arg where
  /-- The word of an `int`. -/
  | int (word : ℕ)
  | char (c : UInt8)
  /-- `none` is `NULL`. -/
  | str (s : Option (List UInt8))

/-- `'%'`. -/
def percent : UInt8 := 37

/-- `'-'`. -/
def minus : UInt8 := 45

/-- The case `'d'` of `vsprintf`. -/
def putInt (word : ℕ) (o : Out) : Option Out :=
  -- `arg_int < 0`; `0 - arg_int` wraps around
  if 2 ^ 31 ≤ word then itoa (subU32 0 word) 10 (o.put minus) else itoa word 10 o

/-- The rest of the format string in `vsprintf`, and what it returns; the buffer has `size`
bytes. -/
def vsprintfLoop (size : ℕ) : (format : List UInt8) → List Arg → Out → Option (Bytes × ℕ)
  | [], _, o => (strlen o.mem size 0).map fun n => (o.mem, n)
  | c :: format, args, o =>
      if c ≠ percent then vsprintfLoop size format args (o.put c)
      else
        match format with
        | [] => none
        | c :: format =>
            if c = 120 then
              match args with
              | .int word :: args => (itoa word 16 o).bind (vsprintfLoop size format args)
              | _ => none
            else if c = 100 then
              match args with
              | .int word :: args => (putInt word o).bind (vsprintfLoop size format args)
              | _ => none
            else if c = 99 then
              match args with
              | .char c :: args => vsprintfLoop size format args (o.put c)
              | _ => none
            else if c = 115 then
              match args with
              | .str (some s) :: args => vsprintfLoop size format args (o.copyStr s)
              | _ => none
            else none

/-- `vsprintf`: the buffer afterwards and the result. -/
def vsprintf (size : ℕ) (buf : Bytes) (format : List UInt8) (args : List Arg) : Option (Bytes × ℕ) :=
  vsprintfLoop size format args ⟨buf, 0⟩

/-- `sprintf`. -/
def sprintf (size : ℕ) (buf : Bytes) (format : List UInt8) (args : List Arg) : Option (Bytes × ℕ) :=
  vsprintf size buf format args

end BochsOs.Stdio
