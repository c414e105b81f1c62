import BochsOs.Library.Relocation
import BochsOs.C4.Syntax

/-!
# The code of expressions and statements

What `expr` and `stmt` put out for a syntax tree.  A jump leads to an absolute address, so that the
code is a function of the place to which it goes.  `Expr.address` is the code of an lvalue without
the load at its end (`Expr.code_lvalue`).
-/

namespace BochsOs.C4

open Relocation

/-- A piece of code. -/
abbrev Piece := Code Word Word

namespace Piece

/-- One piece behind the other. -/
instance : Append Piece := ⟨Code.seq 4⟩

/-- No code. -/
def nil : Piece := Code.cells []

/-- An instruction without an operand. -/
def op (o : Op) : Piece := Code.cells [o.code]

/-- An instruction with an operand. -/
def opWith (o : Op) (w : Word) : Piece := Code.cells [o.code, w]

/-- `c`, where `o` may jump over it. -/
def optional (o : Op) (c : Piece) : Piece := Code.branch 4 id o.code c

/-- `c` or, where the value is zero, `d`. -/
def either (c d : Piece) : Piece := Code.either 4 id Op.bz.code Op.jmp.code c d

/-- `c` and `d` again and again, until the value of `c` is zero. -/
def loop (c d : Piece) : Piece := Code.loop 4 id Op.bz.code Op.jmp.code c d

/-- The product or the quotient with `sizeof(int)`. -/
def scale (o : Op) : Piece := op .psh ++ opWith .imm 4 ++ op o

/-- An lvalue of type `ty`, whose address is known, becomes its value plus or minus a step. -/
def increment (dec : Bool) (ty : ℕ) : Piece :=
  op .psh ++ op (loadOp ty) ++ op .psh ++ opWith .imm (stepOf ty) ++ op (if dec then .sub else .add) ++
    op (storeOp ty)

end Piece

/-- The value of a number. -/
def Expr.literal : Expr → Option Word
  | .num v => some v
  | _ => none

theorem Expr.literal_eq_none {e : Expr} (h : ∀ v, e ≠ .num v) : e.literal = none := by
  cases e with
  | num v => exact absurd rfl (h v)
  | _ => rfl

section Expressions

variable (Γ : Scope) (loc : Word)

open Piece

mutual

/-- The code of an expression. -/
def Expr.code : Expr → Piece
  | .num v => opWith .imm v
  | .str v => opWith .imm v
  | .sizeof t => opWith .imm (if t.ty = Ty.char then 1 else 4)
  | .name i =>
      if (Γ i).cls = .num then opWith .imm (Γ i).val
      else if (Γ i).cls = .loc then opWith .lea (loc - (Γ i).val) ++ op (loadOp (Γ i).type)
      else opWith .imm (Γ i).val ++ op (loadOp (Γ i).type)
  | .call i args =>
      codeArgs args ++
        (if (Γ i).cls = .sys then Code.cells [(Γ i).val] else opWith .jsr (Γ i).val) ++
        if args.length = 0 then nil else opWith .adj (BitVec.ofNat 32 args.length)
  | .paren e => e.code
  | .cast _ e => e.code
  | .deref e => e.code ++ op (loadOp (e.type Γ - Ty.ptr))
  | .addressOf e => e.address
  | .lnot e => e.code ++ op .psh ++ opWith .imm 0 ++ op .eq
  | .bnot e => e.code ++ op .psh ++ opWith .imm (-1) ++ op .xor
  | .plus e => e.code
  | .neg e =>
      match e.literal with
      | some v => opWith .imm (-v)
      | none => opWith .imm (-1) ++ op .psh ++ e.code ++ op .mul
  | .pre dec e => e.address ++ increment dec (e.type Γ)
  | .post dec e =>
      e.address ++ increment dec (e.type Γ) ++ op .psh ++ opWith .imm (stepOf (e.type Γ)) ++
        op (if dec then .add else .sub)
  | .index x y =>
      x.code ++ op .psh ++ y.code ++ (if Ty.ptr < x.type Γ then scale .mul else nil) ++ op .add ++
        op (loadOp (x.type Γ - Ty.ptr))
  | .bin o x y => x.code ++ op .psh ++ y.code ++ op o.op
  | .add x y =>
      x.code ++ op .psh ++ y.code ++ (if Ty.ptr < x.type Γ then scale .mul else nil) ++ op .add
  | .sub x y =>
      if Ty.ptr < x.type Γ ∧ x.type Γ = y.type Γ then
        x.code ++ op .psh ++ y.code ++ op .sub ++ scale .div
      else
        x.code ++ op .psh ++ y.code ++ (if Ty.ptr < x.type Γ then scale .mul else nil) ++ op .sub
  | .lor x y => x.code ++ optional .bnz y.code
  | .lan x y => x.code ++ optional .bz y.code
  | .cond x y z => x.code ++ either y.code z.code
  | .assign x y => x.address ++ op .psh ++ y.code ++ op (storeOp (x.type Γ))

/-- The code of the address of an lvalue. -/
def Expr.address : Expr → Piece
  | .name i =>
      if (Γ i).cls = .loc then opWith .lea (loc - (Γ i).val) else opWith .imm (Γ i).val
  | .paren e => e.address
  | .deref e => e.code
  | .index x y =>
      x.code ++ op .psh ++ y.code ++ (if Ty.ptr < x.type Γ then scale .mul else nil) ++ op .add
  | _ => nil

/-- The code of arguments, which are pushed one after the other. -/
def codeArgs : List Expr → Piece
  | [] => nil
  | e :: es => e.code ++ op .psh ++ codeArgs es

end

/-- An lvalue is its address and a load. -/
theorem Expr.code_lvalue {e : Expr} (he : e.lvalue Γ = true) :
    e.code Γ loc = e.address Γ loc ++ op (loadOp (e.type Γ)) := by
  induction e using Expr.lvalue.induct with
  | case1 i =>
      have hnum : (Γ i).cls ≠ .num := of_decide_eq_true he
      rw [Expr.code, Expr.address, Expr.type, if_neg hnum, if_neg hnum]
      split
      · rfl
      · rfl
  | case2 e ih =>
      rw [Expr.code, Expr.address, Expr.type]
      exact ih he
  | case3 e => rw [Expr.code, Expr.address, Expr.type]
  | case4 x y => rw [Expr.code, Expr.address, Expr.type]
  | case5 e =>
      unfold Expr.lvalue at he
      split at he <;> simp_all

/-! ## Statements -/

mutual

/-- The code of a statement. -/
def Stmt.code : Stmt → Piece
  | .expr e => e.code Γ loc
  | .if c s => c.code Γ loc ++ optional .bz s.code
  | .ifElse c s t => c.code Γ loc ++ either s.code t.code
  | .while c s => loop (c.code Γ loc) s.code
  | .return => op .lev
  | .returnVal e => e.code Γ loc ++ op .lev
  | .block ss => codeBlock ss
  | .empty => nil

/-- The code of statements one after the other. -/
def codeBlock : List Stmt → Piece
  | [] => nil
  | s :: ss => s.code ++ codeBlock ss

end

end Expressions

end BochsOs.C4
