import Mathlib.Data.BitVec
import BochsOs.Library.Bytes

/-!
# The machine of `c4`

The loop at the end of `main` of `user/c4.c`: the registers, the opcodes and what one round does.
The code is a part of the memory, the pointers are `int`s and count bytes, and the arithmetic is
that of the processor: sums and products are cut to 32 bits, only the low five bits of a shift
count matter, and a quotient that does not exist is a fault.

The calls of the library, `OPEN` to `MCMP`, are left out (`Outcome.call`), as are the count of the
rounds and what `-d` prints.  The memory is all there: an access to a page that is missing is left
out, too.
-/

namespace BochsOs.C4

open ByteMemory

/-- An `int`, a pointer or a cell of the code. -/
abbrev Word := BitVec 32

/-! ## Memory -/

/-- `*(int *)p`. -/
def loadInt (m : Bytes) (p : Word) : Word := BitVec.ofNat 32 (readU32 m p.toNat)

/-- `*(int *)p = v`. -/
def storeInt (m : Bytes) (p v : Word) : Bytes := writeU32 m p.toNat v.toNat

/-- A `char` as an `int`. -/
def ofChar (b : UInt8) : Word := b.toBitVec.signExtend 32

/-- `*(char *)p`. -/
def loadChar (m : Bytes) (p : Word) : Word := ofChar (m p.toNat)

/-- The byte that `(char)v` is. -/
def toChar (v : Word) : UInt8 := UInt8.ofBitVec (v.setWidth 8)

/-- `*(char *)p = v`. -/
def storeChar (m : Bytes) (p v : Word) : Bytes := Function.update m p.toNat (toChar v)

/-! ## Opcodes -/

/-- The opcodes, in the order of the source. -/
inductive Op where
  | lea | imm | jmp | jsr | bz | bnz | ent | adj | lev | li | lc | si | sc | psh
  | or | xor | and | eq | ne | lt | gt | le | ge | shl | shr | add | sub | mul | div | mod
  | «open» | read | clos | prtf | malc | free | mset | mcmp | exit
  deriving DecidableEq

namespace Op

/-- The opcodes by number. -/
def all : List Op :=
  [lea, imm, jmp, jsr, bz, bnz, ent, adj, lev, li, lc, si, sc, psh, or, xor, and, eq, ne, lt, gt, le,
    ge, shl, shr, add, sub, mul, div, mod, «open», read, clos, prtf, malc, free, mset, mcmp, exit]

/-- The number of an opcode. -/
def code (o : Op) : Word := BitVec.ofNat 32 (all.idxOf o)

/-- The opcode with a number. -/
def decode (w : Word) : Option Op := all[w.toNat]?

@[simp] theorem decode_code (o : Op) : decode o.code = some o := by
  cases o <;> rfl

/-- A truth value. -/
def ofBool (b : Bool) : Word := if b then 1 else 0

/-- `x op a`, if `op` is an operator; `none` for a quotient that does not exist, too. -/
def apply : Op → Word → Word → Option Word
  | or, x, a => some (x ||| a)
  | xor, x, a => some (x ^^^ a)
  | and, x, a => some (x &&& a)
  | eq, x, a => some (ofBool (x = a))
  | ne, x, a => some (ofBool (x ≠ a))
  | lt, x, a => some (ofBool (x.slt a))
  | gt, x, a => some (ofBool (a.slt x))
  | le, x, a => some (ofBool (x.sle a))
  | ge, x, a => some (ofBool (a.sle x))
  | shl, x, a => some (x <<< (a.toNat % 32))
  | shr, x, a => some (x.sshiftRight (a.toNat % 32))
  | add, x, a => some (x + a)
  | sub, x, a => some (x - a)
  | mul, x, a => some (x * a)
  | div, x, a => if a = 0 ∨ x = BitVec.intMin 32 ∧ a = -1 then none else some (x.sdiv a)
  | mod, x, a => if a = 0 ∨ x = BitVec.intMin 32 ∧ a = -1 then none else some (x.srem a)
  | _, _, _ => none

end Op

/-! ## The machine -/

/-- The registers and the memory. -/
structure Vm where
  pc : Word
  sp : Word
  bp : Word
  a : Word
  mem : Bytes

/-- What a round comes to. -/
inductive Outcome where
  | next (v : Vm)
  /-- `exit(status)`. -/
  | exit (status : Word)
  /-- A call of the library. -/
  | call (o : Op)
  /-- The processor cannot divide. -/
  | fault
  | unknownInstruction

namespace Vm

/-- One round: `i = *pc++` and what follows. -/
def step (v : Vm) : Outcome :=
  match Op.decode (loadInt v.mem v.pc) with
  | none => .unknownInstruction
  | some i =>
      let pc := v.pc + 4
      match i with
      | .lea => .next { v with a := v.bp + 4 * loadInt v.mem pc, pc := pc + 4 }
      | .imm => .next { v with a := loadInt v.mem pc, pc := pc + 4 }
      | .jmp => .next { v with pc := loadInt v.mem pc }
      | .jsr =>
          let mem := storeInt v.mem (v.sp - 4) (pc + 4)
          .next { v with sp := v.sp - 4, mem := mem, pc := loadInt mem pc }
      | .bz => .next { v with pc := if v.a ≠ 0 then pc + 4 else loadInt v.mem pc }
      | .bnz => .next { v with pc := if v.a ≠ 0 then loadInt v.mem pc else pc + 4 }
      | .ent =>
          let mem := storeInt v.mem (v.sp - 4) v.bp
          .next { v with mem := mem, bp := v.sp - 4, sp := v.sp - 4 - 4 * loadInt mem pc, pc := pc + 4 }
      | .adj => .next { v with sp := v.sp + 4 * loadInt v.mem pc, pc := pc + 4 }
      | .lev => .next { v with sp := v.bp + 8, bp := loadInt v.mem v.bp, pc := loadInt v.mem (v.bp + 4) }
      | .li => .next { v with a := loadInt v.mem v.a, pc := pc }
      | .lc => .next { v with a := loadChar v.mem v.a, pc := pc }
      | .si => .next { v with mem := storeInt v.mem (loadInt v.mem v.sp) v.a, sp := v.sp + 4, pc := pc }
      | .sc => .next { v with
          mem := storeChar v.mem (loadInt v.mem v.sp) v.a
          a := ofChar (toChar v.a)
          sp := v.sp + 4
          pc := pc }
      | .psh => .next { v with mem := storeInt v.mem (v.sp - 4) v.a, sp := v.sp - 4, pc := pc }
      | .«open» | .read | .clos | .prtf | .malc | .free | .mset | .mcmp => .call i
      | .exit => .exit (loadInt v.mem v.sp)
      | _ =>
          match i.apply (loadInt v.mem v.sp) v.a with
          | none => .fault
          | some a => .next { v with a := a, sp := v.sp + 4, pc := pc }

/-- One round that goes on. -/
def Next (v v' : Vm) : Prop := v.step = .next v'

/-- Some rounds. -/
abbrev Steps : Vm → Vm → Prop := Relation.ReflTransGen Next

/-! ## The instructions -/

section Instructions

variable {v : Vm} {w : Word}

/-- The instruction at `pc`. -/
theorem step_eq {o : Op} (h : loadInt v.mem v.pc = o.code) :
    Op.decode (loadInt v.mem v.pc) = some o := by
  rw [h, Op.decode_code]

theorem next_lea (h : loadInt v.mem v.pc = Op.lea.code) (hw : loadInt v.mem (v.pc + 4) = w) :
    v.Next { v with a := v.bp + 4 * w, pc := v.pc + 4 + 4 } := by
  rw [Next, step, step_eq h, ← hw]

theorem next_imm (h : loadInt v.mem v.pc = Op.imm.code) (hw : loadInt v.mem (v.pc + 4) = w) :
    v.Next { v with a := w, pc := v.pc + 4 + 4 } := by
  rw [Next, step, step_eq h, ← hw]

theorem next_jmp (h : loadInt v.mem v.pc = Op.jmp.code) (hw : loadInt v.mem (v.pc + 4) = w) :
    v.Next { v with pc := w } := by
  rw [Next, step, step_eq h, ← hw]

theorem next_bz (h : loadInt v.mem v.pc = Op.bz.code) (hw : loadInt v.mem (v.pc + 4) = w) :
    v.Next { v with pc := if v.a ≠ 0 then v.pc + 4 + 4 else w } := by
  rw [Next, step, step_eq h, ← hw]

theorem next_bnz (h : loadInt v.mem v.pc = Op.bnz.code) (hw : loadInt v.mem (v.pc + 4) = w) :
    v.Next { v with pc := if v.a ≠ 0 then w else v.pc + 4 + 4 } := by
  rw [Next, step, step_eq h, ← hw]

theorem next_jsr (h : loadInt v.mem v.pc = Op.jsr.code)
    (hw : loadInt (storeInt v.mem (v.sp - 4) (v.pc + 4 + 4)) (v.pc + 4) = w) :
    v.Next { v with sp := v.sp - 4, mem := storeInt v.mem (v.sp - 4) (v.pc + 4 + 4), pc := w } := by
  rw [Next, step, step_eq h, ← hw]

theorem next_ent (h : loadInt v.mem v.pc = Op.ent.code)
    (hw : loadInt (storeInt v.mem (v.sp - 4) v.bp) (v.pc + 4) = w) :
    v.Next { v with
      mem := storeInt v.mem (v.sp - 4) v.bp
      bp := v.sp - 4
      sp := v.sp - 4 - 4 * w
      pc := v.pc + 4 + 4 } := by
  rw [Next, step, step_eq h, ← hw]

theorem next_adj (h : loadInt v.mem v.pc = Op.adj.code) (hw : loadInt v.mem (v.pc + 4) = w) :
    v.Next { v with sp := v.sp + 4 * w, pc := v.pc + 4 + 4 } := by
  rw [Next, step, step_eq h, ← hw]

theorem next_lev (h : loadInt v.mem v.pc = Op.lev.code) :
    v.Next { v with sp := v.bp + 8, bp := loadInt v.mem v.bp, pc := loadInt v.mem (v.bp + 4) } := by
  rw [Next, step, step_eq h]

theorem next_li (h : loadInt v.mem v.pc = Op.li.code) :
    v.Next { v with a := loadInt v.mem v.a, pc := v.pc + 4 } := by
  rw [Next, step, step_eq h]

theorem next_lc (h : loadInt v.mem v.pc = Op.lc.code) :
    v.Next { v with a := loadChar v.mem v.a, pc := v.pc + 4 } := by
  rw [Next, step, step_eq h]

theorem next_si (h : loadInt v.mem v.pc = Op.si.code) :
    v.Next { v with
      mem := storeInt v.mem (loadInt v.mem v.sp) v.a
      sp := v.sp + 4
      pc := v.pc + 4 } := by
  rw [Next, step, step_eq h]

theorem next_sc (h : loadInt v.mem v.pc = Op.sc.code) :
    v.Next { v with
      mem := storeChar v.mem (loadInt v.mem v.sp) v.a
      a := ofChar (toChar v.a)
      sp := v.sp + 4
      pc := v.pc + 4 } := by
  rw [Next, step, step_eq h]

theorem next_psh (h : loadInt v.mem v.pc = Op.psh.code) :
    v.Next { v with mem := storeInt v.mem (v.sp - 4) v.a, sp := v.sp - 4, pc := v.pc + 4 } := by
  rw [Next, step, step_eq h]

/-- An operator takes its left operand from the stack. -/
theorem next_apply {o : Op} {r : Word} (h : loadInt v.mem v.pc = o.code)
    (hr : o.apply (loadInt v.mem v.sp) v.a = some r) :
    v.Next { v with a := r, sp := v.sp + 4, pc := v.pc + 4 } := by
  rw [Next, step, step_eq h]
  cases o <;> first
    | cases hr; done
    | (dsimp only; rw [hr])

/-- `EXIT` ends the run. -/
theorem step_exit (h : loadInt v.mem v.pc = Op.exit.code) :
    v.step = .exit (loadInt v.mem v.sp) := by
  rw [step, step_eq h]

end Instructions

end Vm

end BochsOs.C4
