import Mathlib.Data.Set.Basic
import BochsOs.C4.Syntax

/-!
# What the programs of `c4` mean

A big-step semantics of the language of `Syntax`, with the memory as the program sees it: `own` are
the bytes that it may write, and `init` those that it may read, because they have been written.
The local variables and the parameters belong to it while their function runs, and they lie where
`c4` puts them, for a program can ask for their addresses.

The semantics is that of the source, not of C: the value of `&&` and of `||` is that of an
operand, a cast changes the type alone, and the value of a function that ends without `return` is
that of the last expression.  For this the last value `a` goes through all rules.  A run that would
leave the stack, read what is not there or write elsewhere has no meaning.
-/

namespace BochsOs.C4

open ByteMemory

/-! ## The memory -/

/-- `sizeof` of an object of type `ty`. -/
def objectSize (ty : ℕ) : ℕ := if ty = Ty.char then 1 else 4

/-- The object of type `ty` at `p`. -/
def loadAs (ty : ℕ) (m : Bytes) (p : Word) : Word :=
  if ty = Ty.char then loadChar m p else loadInt m p

/-- The object of type `ty` at `p` becomes `v`. -/
def storeAs (ty : ℕ) (m : Bytes) (p v : Word) : Bytes :=
  if ty = Ty.char then storeChar m p v else storeInt m p v

/-- What an object of type `ty` keeps of `v`. -/
def convert (ty : ℕ) (v : Word) : Word := if ty = Ty.char then ofChar (toChar v) else v

/-- The bytes from `low` on, below `high`. -/
def between (low high : ℕ) : Set ℕ := {x | low ≤ x ∧ x < high}

/-- The bytes of an object of type `ty` at `p`. -/
def extent (ty : ℕ) (p : Word) : Set ℕ := between p.toNat (p.toNat + objectSize ty)

/-- The memory of a program. -/
structure Store where
  bytes : Bytes
  own : Set ℕ
  init : Set ℕ

/-- Values are pushed one after the other, from `sp` down. -/
def pushAll (m : Bytes) (sp : Word) : List Word → Bytes
  | [] => m
  | v :: vs => pushAll (storeInt m (sp - 4) v) (sp - 4) vs

namespace Store

variable (M : Store)

/-- The object of type `ty` at `p` is written. -/
def write (ty : ℕ) (p v : Word) : Store where
  bytes := storeAs ty M.bytes p v
  own := M.own
  init := M.init ∪ extent ty p

/-- The parameters of a call, pushed from `sp` down. -/
def paramsAt (sp n : ℕ) : Set ℕ := between (sp - 4 * n) sp

/-- The `k` local variables of a call with `n` arguments; the return address and the old `bp` lie in
between. -/
def localsAt (sp n k : ℕ) : Set ℕ := between (sp - 4 * n - 8 - 4 * k) (sp - 4 * n - 8)

/-- A function with `k` local variables is entered. -/
def enter (sp : Word) (vs : List Word) (k : ℕ) : Store where
  bytes := pushAll M.bytes sp vs
  own := M.own ∪ paramsAt sp.toNat vs.length ∪ localsAt sp.toNat vs.length k
  init := M.init ∪ paramsAt sp.toNat vs.length

/-- The function ends, and `M₀` was the memory of the caller. -/
def leave (M₀ : Store) : Store where
  bytes := M.bytes
  own := M₀.own
  init := M.init ∩ M₀.own

end Store

/-! ## Programs -/

/-- A function: its parameters and local variables are counted. -/
structure Function where
  params : ℕ
  locals : ℕ
  scope : Scope
  body : List Stmt

/-- `loc` of a function. -/
def Function.loc (f : Function) : Word := BitVec.ofNat 32 (f.params + 1)

/-- The functions by their addresses, and the end of the stack. -/
structure Program where
  functions : Word → Option Function
  low : ℕ

/-- The names, `loc` and `bp` of a running function. -/
structure Activation where
  scope : Scope
  loc : Word
  bp : Word

/-- What can be run. -/
inductive Item where
  | expr (e : Expr)
  /-- The address of an lvalue. -/
  | address (e : Expr)
  | args (es : List Expr)
  | stmt (s : Stmt)
  | block (ss : List Stmt)

/-- How it ends. -/
inductive Ending where
  | done
  | returned
  /-- These values have been pushed. -/
  | pushed (vs : List Word)

/-- Expressions that load what lies at their address. -/
def Expr.Loads (Γ : Scope) : Expr → Prop
  | .name i => (Γ i).cls ≠ .num
  | .deref _ => True
  | .index _ _ => True
  | _ => False

/-- What `y` counts when it is added to a value of type `ty`. -/
def scaled (ty : ℕ) (y : Word) : Word := if Ty.ptr < ty then y * 4 else y

/-- How much of the stack is used to add to a value of type `ty`. -/
def scaleRoom (ty : ℕ) : ℕ := if Ty.ptr < ty then 8 else 4

/-- One more or one less step. -/
def stepped (dec : Bool) (ty : ℕ) (v : Word) : Word := if dec then v - stepOf ty else v + stepOf ty

/-! ## The rules -/

section Rules

variable (P : Program)

/-- In the function `F`, with `sp` as the end of the stack, an item takes the memory `M` and the last
value `a` to `M'` and `a'`. -/
inductive Runs : Activation → Word → Item → Store → Word → Ending → Store → Word → Prop where
  | num {F : Activation} {sp a v : Word} {M : Store} : Runs F sp (.expr (.num v)) M a .done M v
  | str {F : Activation} {sp a v : Word} {M : Store} : Runs F sp (.expr (.str v)) M a .done M v
  | sizeof {F : Activation} {sp a : Word} {M : Store} {t : TypeName} :
      Runs F sp (.expr (.sizeof t)) M a .done M (if t.ty = Ty.char then 1 else 4)
  | const {F : Activation} {sp a : Word} {M : Store} {i : ℕ} (hi : (F.scope i).cls = .num) :
      Runs F sp (.expr (.name i)) M a .done M (F.scope i).val
  | local {F : Activation} {sp a : Word} {M : Store} {i : ℕ} (hi : (F.scope i).cls = .loc) :
      Runs F sp (.address (.name i)) M a .done M (F.bp + 4 * (F.loc - (F.scope i).val))
  | global {F : Activation} {sp a : Word} {M : Store} {i : ℕ} (hi : (F.scope i).cls = .glo) :
      Runs F sp (.address (.name i)) M a .done M (F.scope i).val
  | parenAddress {F : Activation} {sp a p : Word} {M M' : Store} {e : Expr}
      (he : Runs F sp (.address e) M a .done M' p) : Runs F sp (.address (.paren e)) M a .done M' p
  | derefAddress {F : Activation} {sp a p : Word} {M M' : Store} {e : Expr}
      (he : Runs F sp (.expr e) M a .done M' p) : Runs F sp (.address (.deref e)) M a .done M' p
  | indexAddress {F : Activation} {sp a u v : Word} {M M₁ M₂ : Store} {x y : Expr}
      (hx : Runs F sp (.expr x) M a .done M₁ u) (hroom : P.low + scaleRoom (x.type F.scope) ≤ sp.toNat)
      (hy : Runs F (sp - 4) (.expr y) M₁ u .done M₂ v) :
      Runs F sp (.address (.index x y)) M a .done M₂ (u + scaled (x.type F.scope) v)
  | load {F : Activation} {sp a p : Word} {M M' : Store} {e : Expr} (hload : e.Loads F.scope)
      (he : Runs F sp (.address e) M a .done M' p) (hinit : extent (e.type F.scope) p ⊆ M'.init) :
      Runs F sp (.expr e) M a .done M' (loadAs (e.type F.scope) M'.bytes p)
  | paren {F : Activation} {sp a v : Word} {M M' : Store} {e : Expr}
      (he : Runs F sp (.expr e) M a .done M' v) : Runs F sp (.expr (.paren e)) M a .done M' v
  | cast {F : Activation} {sp a v : Word} {M M' : Store} {t : TypeName} {e : Expr}
      (he : Runs F sp (.expr e) M a .done M' v) : Runs F sp (.expr (.cast t e)) M a .done M' v
  | addressOf {F : Activation} {sp a p : Word} {M M' : Store} {e : Expr}
      (he : Runs F sp (.address e) M a .done M' p) : Runs F sp (.expr (.addressOf e)) M a .done M' p
  | lnot {F : Activation} {sp a v : Word} {M M' : Store} {e : Expr}
      (he : Runs F sp (.expr e) M a .done M' v) (hroom : P.low + 4 ≤ sp.toNat) :
      Runs F sp (.expr (.lnot e)) M a .done M' (if v = 0 then 1 else 0)
  | bnot {F : Activation} {sp a v : Word} {M M' : Store} {e : Expr}
      (he : Runs F sp (.expr e) M a .done M' v) (hroom : P.low + 4 ≤ sp.toNat) :
      Runs F sp (.expr (.bnot e)) M a .done M' (~~~v)
  | plus {F : Activation} {sp a v : Word} {M M' : Store} {e : Expr}
      (he : Runs F sp (.expr e) M a .done M' v) : Runs F sp (.expr (.plus e)) M a .done M' v
  | negNum {F : Activation} {sp a v : Word} {M : Store} :
      Runs F sp (.expr (.neg (.num v))) M a .done M (-v)
  | neg {F : Activation} {sp a v : Word} {M M' : Store} {e : Expr}
      (hnum : ∀ v, e ≠ .num v) (hroom : P.low + 4 ≤ sp.toNat)
      (he : Runs F (sp - 4) (.expr e) M (-1) .done M' v) :
      Runs F sp (.expr (.neg e)) M a .done M' (-v)
  | pre {F : Activation} {sp a p v : Word} {M M' : Store} {dec : Bool} {e : Expr}
      (hlvalue : e.lvalue F.scope = true) (he : Runs F sp (.address e) M a .done M' p)
      (hroom : P.low + 8 ≤ sp.toNat) (hinit : extent (e.type F.scope) p ⊆ M'.init)
      (hv : v = stepped dec (e.type F.scope) (loadAs (e.type F.scope) M'.bytes p)) :
      Runs F sp (.expr (.pre dec e)) M a .done (M'.write (e.type F.scope) p v)
        (convert (e.type F.scope) v)
  | post {F : Activation} {sp a p v : Word} {M M' : Store} {dec : Bool} {e : Expr}
      (hlvalue : e.lvalue F.scope = true) (he : Runs F sp (.address e) M a .done M' p)
      (hroom : P.low + 8 ≤ sp.toNat) (hinit : extent (e.type F.scope) p ⊆ M'.init)
      (hv : v = stepped dec (e.type F.scope) (loadAs (e.type F.scope) M'.bytes p)) :
      Runs F sp (.expr (.post dec e)) M a .done (M'.write (e.type F.scope) p v)
        (stepped (!dec) (e.type F.scope) (convert (e.type F.scope) v))
  | bin {F : Activation} {sp a u v r : Word} {M M₁ M₂ : Store} {o : BinOp} {x y : Expr}
      (hx : Runs F sp (.expr x) M a .done M₁ u) (hroom : P.low + 4 ≤ sp.toNat)
      (hy : Runs F (sp - 4) (.expr y) M₁ u .done M₂ v) (hr : o.op.apply u v = some r) :
      Runs F sp (.expr (.bin o x y)) M a .done M₂ r
  | add {F : Activation} {sp a u v : Word} {M M₁ M₂ : Store} {x y : Expr}
      (hx : Runs F sp (.expr x) M a .done M₁ u) (hroom : P.low + scaleRoom (x.type F.scope) ≤ sp.toNat)
      (hy : Runs F (sp - 4) (.expr y) M₁ u .done M₂ v) :
      Runs F sp (.expr (.add x y)) M a .done M₂ (u + scaled (x.type F.scope) v)
  | subPtr {F : Activation} {sp a u v : Word} {M M₁ M₂ : Store} {x y : Expr}
      (htype : Ty.ptr < x.type F.scope ∧ x.type F.scope = y.type F.scope)
      (hx : Runs F sp (.expr x) M a .done M₁ u) (hroom : P.low + 4 ≤ sp.toNat)
      (hy : Runs F (sp - 4) (.expr y) M₁ u .done M₂ v) :
      Runs F sp (.expr (.sub x y)) M a .done M₂ ((u - v).sdiv 4)
  | sub {F : Activation} {sp a u v : Word} {M M₁ M₂ : Store} {x y : Expr}
      (htype : ¬ (Ty.ptr < x.type F.scope ∧ x.type F.scope = y.type F.scope))
      (hx : Runs F sp (.expr x) M a .done M₁ u) (hroom : P.low + scaleRoom (x.type F.scope) ≤ sp.toNat)
      (hy : Runs F (sp - 4) (.expr y) M₁ u .done M₂ v) :
      Runs F sp (.expr (.sub x y)) M a .done M₂ (u - scaled (x.type F.scope) v)
  | lorLeft {F : Activation} {sp a u : Word} {M M' : Store} {x y : Expr}
      (hx : Runs F sp (.expr x) M a .done M' u) (hu : u ≠ 0) :
      Runs F sp (.expr (.lor x y)) M a .done M' u
  | lorRight {F : Activation} {sp a v : Word} {M M₁ M₂ : Store} {x y : Expr}
      (hx : Runs F sp (.expr x) M a .done M₁ 0) (hy : Runs F sp (.expr y) M₁ 0 .done M₂ v) :
      Runs F sp (.expr (.lor x y)) M a .done M₂ v
  | lanLeft {F : Activation} {sp a : Word} {M M' : Store} {x y : Expr}
      (hx : Runs F sp (.expr x) M a .done M' 0) :
      Runs F sp (.expr (.lan x y)) M a .done M' 0
  | lanRight {F : Activation} {sp a u v : Word} {M M₁ M₂ : Store} {x y : Expr}
      (hx : Runs F sp (.expr x) M a .done M₁ u) (hu : u ≠ 0)
      (hy : Runs F sp (.expr y) M₁ u .done M₂ v) :
      Runs F sp (.expr (.lan x y)) M a .done M₂ v
  | condTrue {F : Activation} {sp a u v : Word} {M M₁ M₂ : Store} {x y z : Expr}
      (hx : Runs F sp (.expr x) M a .done M₁ u) (hu : u ≠ 0)
      (hy : Runs F sp (.expr y) M₁ u .done M₂ v) :
      Runs F sp (.expr (.cond x y z)) M a .done M₂ v
  | condFalse {F : Activation} {sp a v : Word} {M M₁ M₂ : Store} {x y z : Expr}
      (hx : Runs F sp (.expr x) M a .done M₁ 0) (hz : Runs F sp (.expr z) M₁ 0 .done M₂ v) :
      Runs F sp (.expr (.cond x y z)) M a .done M₂ v
  | assign {F : Activation} {sp a p v : Word} {M M₁ M₂ : Store} {x y : Expr}
      (hlvalue : x.lvalue F.scope = true) (hx : Runs F sp (.address x) M a .done M₁ p)
      (hroom : P.low + 4 ≤ sp.toNat) (hy : Runs F (sp - 4) (.expr y) M₁ p .done M₂ v)
      (hown : extent (x.type F.scope) p ⊆ M₂.own) :
      Runs F sp (.expr (.assign x y)) M a .done (M₂.write (x.type F.scope) p v)
        (convert (x.type F.scope) v)
  | argsNil {F : Activation} {sp a : Word} {M : Store} : Runs F sp (.args []) M a (.pushed []) M a
  | argsCons {F : Activation} {sp a v b : Word} {M M₁ M₂ : Store} {e : Expr} {es : List Expr}
      {vs : List Word} (he : Runs F sp (.expr e) M a .done M₁ v) (hroom : P.low + 4 ≤ sp.toNat)
      (hes : Runs F (sp - 4) (.args es) M₁ v (.pushed vs) M₂ b) :
      Runs F sp (.args (e :: es)) M a (.pushed (v :: vs)) M₂ b
  | call {F : Activation} {sp a b r : Word} {M M₁ M₂ : Store} {i : ℕ} {es : List Expr}
      {vs : List Word} {f : Function} {out : Ending} (hi : (F.scope i).cls = .fun)
      (hf : P.functions (F.scope i).val = some f) (hlen : es.length = f.params)
      (hes : Runs F sp (.args es) M a (.pushed vs) M₁ b)
      (hroom : P.low + 4 * f.params + 8 + 4 * f.locals ≤ sp.toNat)
      (hout : out = .done ∨ out = .returned)
      (hbody : Runs ⟨f.scope, f.loc, sp - 4 * BitVec.ofNat 32 f.params - 8⟩
        (sp - 4 * BitVec.ofNat 32 f.params - 8 - 4 * BitVec.ofNat 32 f.locals) (.block f.body)
        (M₁.enter sp vs f.locals) b out M₂ r) :
      Runs F sp (.expr (.call i es)) M a .done (M₂.leave M₁) r
  | exprStmt {F : Activation} {sp a v : Word} {M M' : Store} {e : Expr}
      (he : Runs F sp (.expr e) M a .done M' v) : Runs F sp (.stmt (.expr e)) M a .done M' v
  | ifTrue {F : Activation} {sp a u b : Word} {M M₁ M₂ : Store} {c : Expr} {s : Stmt} {out : Ending}
      (hc : Runs F sp (.expr c) M a .done M₁ u) (hu : u ≠ 0)
      (hs : Runs F sp (.stmt s) M₁ u out M₂ b) : Runs F sp (.stmt (.if c s)) M a out M₂ b
  | ifFalse {F : Activation} {sp a : Word} {M M' : Store} {c : Expr} {s : Stmt}
      (hc : Runs F sp (.expr c) M a .done M' 0) : Runs F sp (.stmt (.if c s)) M a .done M' 0
  | ifElseTrue {F : Activation} {sp a u b : Word} {M M₁ M₂ : Store} {c : Expr} {s t : Stmt}
      {out : Ending} (hc : Runs F sp (.expr c) M a .done M₁ u) (hu : u ≠ 0)
      (hs : Runs F sp (.stmt s) M₁ u out M₂ b) : Runs F sp (.stmt (.ifElse c s t)) M a out M₂ b
  | ifElseFalse {F : Activation} {sp a b : Word} {M M₁ M₂ : Store} {c : Expr} {s t : Stmt}
      {out : Ending} (hc : Runs F sp (.expr c) M a .done M₁ 0)
      (ht : Runs F sp (.stmt t) M₁ 0 out M₂ b) : Runs F sp (.stmt (.ifElse c s t)) M a out M₂ b
  | whileFalse {F : Activation} {sp a : Word} {M M' : Store} {c : Expr} {s : Stmt}
      (hc : Runs F sp (.expr c) M a .done M' 0) : Runs F sp (.stmt (.while c s)) M a .done M' 0
  | whileTrue {F : Activation} {sp a u b d : Word} {M M₁ M₂ M₃ : Store} {c : Expr} {s : Stmt}
      {out : Ending} (hc : Runs F sp (.expr c) M a .done M₁ u) (hu : u ≠ 0)
      (hs : Runs F sp (.stmt s) M₁ u .done M₂ b)
      (hloop : Runs F sp (.stmt (.while c s)) M₂ b out M₃ d) :
      Runs F sp (.stmt (.while c s)) M a out M₃ d
  | whileReturn {F : Activation} {sp a u b : Word} {M M₁ M₂ : Store} {c : Expr} {s : Stmt}
      (hc : Runs F sp (.expr c) M a .done M₁ u) (hu : u ≠ 0)
      (hs : Runs F sp (.stmt s) M₁ u .returned M₂ b) :
      Runs F sp (.stmt (.while c s)) M a .returned M₂ b
  | return {F : Activation} {sp a : Word} {M : Store} : Runs F sp (.stmt .return) M a .returned M a
  | returnVal {F : Activation} {sp a v : Word} {M M' : Store} {e : Expr}
      (he : Runs F sp (.expr e) M a .done M' v) :
      Runs F sp (.stmt (.returnVal e)) M a .returned M' v
  | empty {F : Activation} {sp a : Word} {M : Store} : Runs F sp (.stmt .empty) M a .done M a
  | blockStmt {F : Activation} {sp a b : Word} {M M' : Store} {ss : List Stmt} {out : Ending}
      (hss : Runs F sp (.block ss) M a out M' b) : Runs F sp (.stmt (.block ss)) M a out M' b
  | blockNil {F : Activation} {sp a : Word} {M : Store} : Runs F sp (.block []) M a .done M a
  | blockCons {F : Activation} {sp a b d : Word} {M M₁ M₂ : Store} {s : Stmt} {ss : List Stmt}
      {out : Ending} (hs : Runs F sp (.stmt s) M a .done M₁ b)
      (hss : Runs F sp (.block ss) M₁ b out M₂ d) : Runs F sp (.block (s :: ss)) M a out M₂ d
  | blockReturn {F : Activation} {sp a b : Word} {M M' : Store} {s : Stmt} {ss : List Stmt}
      (hs : Runs F sp (.stmt s) M a .returned M' b) :
      Runs F sp (.block (s :: ss)) M a .returned M' b

end Rules

end BochsOs.C4
