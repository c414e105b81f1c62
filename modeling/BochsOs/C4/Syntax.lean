import BochsOs.C4.Compiler

/-!
# The language of `c4`

The syntax trees of the expressions and statements that `expr` and `stmt` accept, and their types.
A name is the number of an entry of the symbol table, and a `Scope` says what the names stand for.

Parentheses are nodes of their own, so that a tree determines its tokens.
-/

namespace BochsOs.C4

/-- What a name stands for. -/
structure Binding where
  cls : Class
  type : ℕ
  val : Word

/-- What the names stand for. -/
abbrev Scope := ℕ → Binding

/-- The binding of an entry. -/
def Ident.binding (d : Ident) : Binding := ⟨d.cls, d.type, d.val⟩

/-- `int` or `char`, followed by stars. -/
structure TypeName where
  char : Bool
  stars : ℕ

/-- The number of a type. -/
def TypeName.ty (t : TypeName) : ℕ := (if t.char then Ty.char else Ty.int) + Ty.ptr * t.stars

/-- The operators that do nothing else than to put two values together. -/
inductive BinOp where
  | or | xor | and | eq | ne | lt | gt | le | ge | shl | shr | mul | div | mod

namespace BinOp

/-- The token, the level of the right operand and the opcode. -/
def row : BinOp → ℕ × ℕ × Op
  | or => (Tok.or, Tok.xor, .or)
  | xor => (Tok.xor, Tok.and, .xor)
  | and => (Tok.and, Tok.eq, .and)
  | eq => (Tok.eq, Tok.lt, .eq)
  | ne => (Tok.ne, Tok.lt, .ne)
  | lt => (Tok.lt, Tok.shl, .lt)
  | gt => (Tok.gt, Tok.shl, .gt)
  | le => (Tok.le, Tok.shl, .le)
  | ge => (Tok.ge, Tok.shl, .ge)
  | shl => (Tok.shl, Tok.add, .shl)
  | shr => (Tok.shr, Tok.add, .shr)
  | mul => (Tok.mul, Tok.inc, .mul)
  | div => (Tok.div, Tok.inc, .div)
  | mod => (Tok.mod, Tok.inc, .mod)

def tok (o : BinOp) : ℕ := o.row.1
def level (o : BinOp) : ℕ := o.row.2.1
def op (o : BinOp) : Op := o.row.2.2

end BinOp

/-- Expressions; `dec` tells `--` from `++`. -/
inductive Expr where
  | num (v : Word)
  | str (v : Word)
  | sizeof (t : TypeName)
  | name (i : ℕ)
  | call (i : ℕ) (args : List Expr)
  | paren (e : Expr)
  | cast (t : TypeName) (e : Expr)
  | deref (e : Expr)
  | addressOf (e : Expr)
  | lnot (e : Expr)
  | bnot (e : Expr)
  | plus (e : Expr)
  | neg (e : Expr)
  | pre (dec : Bool) (e : Expr)
  | post (dec : Bool) (e : Expr)
  | index (x y : Expr)
  | bin (o : BinOp) (x y : Expr)
  | add (x y : Expr)
  | sub (x y : Expr)
  | lor (x y : Expr)
  | lan (x y : Expr)
  | cond (x y z : Expr)
  | assign (x y : Expr)

/-- Statements. -/
inductive Stmt where
  | expr (e : Expr)
  | «if» (c : Expr) (s : Stmt)
  | ifElse (c : Expr) (s t : Stmt)
  | «while» (c : Expr) (s : Stmt)
  | «return»
  | returnVal (e : Expr)
  | block (ss : List Stmt)
  | empty

/-- Induction on an expression, with all arguments of a call. -/
theorem Expr.ind {p : Expr → Prop} (num : ∀ v, p (.num v)) (str : ∀ v, p (.str v))
    (sizeof : ∀ t, p (.sizeof t)) (name : ∀ i, p (.name i))
    (call : ∀ i args, (∀ e ∈ args, p e) → p (.call i args)) (paren : ∀ e, p e → p (.paren e))
    (cast : ∀ t e, p e → p (.cast t e)) (deref : ∀ e, p e → p (.deref e))
    (addressOf : ∀ e, p e → p (.addressOf e)) (lnot : ∀ e, p e → p (.lnot e))
    (bnot : ∀ e, p e → p (.bnot e)) (plus : ∀ e, p e → p (.plus e)) (neg : ∀ e, p e → p (.neg e))
    (pre : ∀ dec e, p e → p (.pre dec e)) (post : ∀ dec e, p e → p (.post dec e))
    (index : ∀ x y, p x → p y → p (.index x y)) (bin : ∀ o x y, p x → p y → p (.bin o x y))
    (add : ∀ x y, p x → p y → p (.add x y)) (sub : ∀ x y, p x → p y → p (.sub x y))
    (lor : ∀ x y, p x → p y → p (.lor x y)) (lan : ∀ x y, p x → p y → p (.lan x y))
    (cond : ∀ x y z, p x → p y → p z → p (.cond x y z))
    (assign : ∀ x y, p x → p y → p (.assign x y)) (e : Expr) : p e :=
  @Expr.rec p (fun es => ∀ e ∈ es, p e) num str sizeof name call paren cast deref addressOf lnot bnot
    plus neg pre post index bin add sub lor lan cond assign (fun _ he => absurd he List.not_mem_nil)
    (fun _ _ he hes => List.forall_mem_cons.mpr ⟨he, hes⟩) e

/-- Induction on a statement, with all statements of a block. -/
theorem Stmt.ind {p : Stmt → Prop} (expr : ∀ e, p (.expr e)) (ifs : ∀ c s, p s → p (.if c s))
    (ifElse : ∀ c s t, p s → p t → p (.ifElse c s t)) (loop : ∀ c s, p s → p (.while c s))
    (ret : p .return) (returnVal : ∀ e, p (.returnVal e))
    (block : ∀ ss, (∀ s ∈ ss, p s) → p (.block ss)) (empty : p .empty) (s : Stmt) : p s :=
  @Stmt.rec p (fun ss => ∀ s ∈ ss, p s) expr ifs ifElse loop ret returnVal block empty
    (fun _ hs => absurd hs List.not_mem_nil)
    (fun _ _ hs hss => List.forall_mem_cons.mpr ⟨hs, hss⟩) s

namespace Expr

variable (Γ : Scope)

/-- The type that `expr` leaves in `ty`. -/
def type : Expr → ℕ
  | num _ => Ty.int
  | str _ => Ty.ptr
  | sizeof _ => Ty.int
  | name i => if (Γ i).cls = .num then Ty.int else (Γ i).type
  | call i _ => (Γ i).type
  | paren e => type e
  | cast t _ => t.ty
  | deref e => type e - Ty.ptr
  | addressOf e => type e + Ty.ptr
  | lnot _ => Ty.int
  | bnot _ => Ty.int
  | plus _ => Ty.int
  | neg _ => Ty.int
  | pre _ e => type e
  | post _ e => type e
  | index x _ => type x - Ty.ptr
  | bin _ _ _ => Ty.int
  | add x _ => type x
  | sub x y => if Ty.ptr < type x ∧ type x = type y then Ty.int else type x
  | lor _ _ => Ty.int
  | lan _ _ => Ty.int
  | cond _ _ z => type z
  | assign x _ => type x

/-- The code of such an expression ends with a load. -/
def lvalue : Expr → Bool
  | name i => (Γ i).cls ≠ .num
  | paren e => lvalue e
  | deref _ => true
  | index _ _ => true
  | _ => false

end Expr

end BochsOs.C4
