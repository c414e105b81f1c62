import BochsOs.C4.Lexer

/-!
# The compiler of `c4`

`expr`, `stmt` and the declarations in `main` of `user/c4.c`.  The code is the list of the cells
from `text + 4` on, for `e` points to the last cell and the first one stays unused; what `e + 1`
points to is `Compiler.here`.  The cell of a jump that is filled in later holds `0` until then.

The loops and the recursion have a bound on their rounds, and `Failure.fuel` says that it is
reached.
-/

namespace BochsOs.C4

/-! ## Types -/

namespace Ty

abbrev char : ℕ := 0
abbrev int : ℕ := 1
abbrev ptr : ℕ := 2

end Ty

/-- `(ty == CHAR) ? LC : LI`. -/
def loadOp (ty : ℕ) : Op := if ty = Ty.char then .lc else .li

/-- `(ty == CHAR) ? SC : SI`. -/
def storeOp (ty : ℕ) : Op := if ty = Ty.char then .sc else .si

/-- `(ty > PTR) ? sizeof(int) : sizeof(char)`. -/
def stepOf (ty : ℕ) : Word := if Ty.ptr < ty then 4 else 1

/-! ## The state -/

/-- What `expr`, `stmt` and `main` read and write. -/
structure Compiler where
  lex : Lexer
  /-- The address of the text area. -/
  text : Word
  /-- The cells up to the one that `e` points to. -/
  code : List Word
  ty : ℕ
  loc : Word

/-- Code that compiles. -/
abbrev Comp := StateT Compiler (Except Failure)

/-- `(int)(e + 1)`. -/
def Compiler.here (c : Compiler) : Word := c.text + (c.code.length + 1) • (4 : Word)

namespace Comp

/-- `next()`. -/
def next : Comp Unit := fun c =>
  match c.lex.next with
  | .error e => .error e
  | .ok l => .ok ((), { c with lex := l })

/-- `printf` of a message and `exit(-1)`. -/
def bad {α : Type} (message : String) : Comp α := fun c => .error (.error c.lex.line message)

/-- The bound on the rounds is reached. -/
def outOfFuel {α : Type} : Comp α := fun _ => .error .fuel

/-- `tk`. -/
def tk : Comp ℕ := fun c => .ok (c.lex.tk, c)

/-- `ival`. -/
def ival : Comp Word := fun c => .ok (c.lex.ival, c)

/-- `id`. -/
def id : Comp ℕ := fun c => .ok (c.lex.id, c)

/-- The entry `d` of the symbol table. -/
def entry (d : ℕ) : Comp Ident := fun c => .ok (c.lex.sym.getD d default, c)

/-- Change the entry that `id` points to. -/
def setId (f : Ident → Ident) : Comp Unit :=
  modify fun c => { c with lex := { c.lex with sym := c.lex.sym.modify c.lex.id f } }

/-- `ty`. -/
def ty : Comp ℕ := fun c => .ok (c.ty, c)

/-- `ty = t`. -/
def setTy (t : ℕ) : Comp Unit := modify fun c => { c with ty := t }

/-- `loc`. -/
def loc : Comp Word := fun c => .ok (c.loc, c)

/-- `loc = v`. -/
def setLoc (v : Word) : Comp Unit := modify fun c => { c with loc := v }

/-- `data`. -/
def data : Comp Word := fun c => .ok (c.lex.data, c)

/-- `data = v`. -/
def setData (v : Word) : Comp Unit := modify fun c => { c with lex := { c.lex with data := v } }

/-- `*++e = w`. -/
def emit (w : Word) : Comp Unit := modify fun c => { c with code := c.code ++ [w] }

/-- `*++e = o`. -/
def emitOp (o : Op) : Comp Unit := emit o.code

/-- `d = ++e`. -/
def hole : Comp ℕ := do
  let c ← get
  emit 0
  return c.code.length

/-- `*d = v`. -/
def fill (d : ℕ) (v : Word) : Comp Unit := modify fun c => { c with code := c.code.set d v }

/-- `(int)(e + 1)`. -/
def here : Comp Word := fun c => .ok (c.here, c)

/-- `*e`. -/
def last : Comp Word := fun c => .ok (c.code.getLastD 0, c)

/-- `--e`. -/
def drop : Comp Unit := modify fun c => { c with code := c.code.dropLast }

/-- `if (tk == t) next(); else` a message. -/
def expect (t : ℕ) (message : String) : Comp Unit := do
  if (← tk) = t then next else bad message

/-- `if (tk == t) next();`. -/
def skip (t : ℕ) : Comp Unit := do
  if (← tk) = t then next else return ()

/-! ## Expressions -/

/-- `while (tk == Mul) { next(); t = t + PTR; }`. -/
def stars : (left t : ℕ) → Comp ℕ
  | 0, _ => outOfFuel
  | left + 1, t => do
      if (← tk) = Tok.mul then
        next
        stars left (t + Ty.ptr)
      else return t

/-- `while (tk == '"') next();`. -/
def strings : (left : ℕ) → Comp Unit
  | 0 => outOfFuel
  | left + 1 => do
      if (← tk) = Tok.quote then
        next
        strings left
      else return ()

section Expressions

variable (expr : ℕ → Comp Unit) (left : ℕ)

/-- A number. -/
def number : Comp Unit := do
  emitOp .imm
  emit (← ival)
  next
  setTy Ty.int

/-- String literals. -/
def string : Comp Unit := do
  emitOp .imm
  emit (← ival)
  next
  strings left
  setData ((← data) + 4 &&& -4)
  setTy Ty.ptr

/-- `sizeof`. -/
def sizeof : Comp Unit := do
  next
  expect Tok.lparen "open paren expected in sizeof"
  let base ← if (← tk) = Tok.int then do
      next
      pure Ty.int
    else if (← tk) = Tok.char then do
      next
      pure Ty.char
    else pure Ty.int
  let t ← stars left base
  expect Tok.rparen "close paren expected in sizeof"
  emitOp .imm
  emit (if t = Ty.char then 1 else 4)
  setTy Ty.int

/-- The arguments of a call, of which there have been `t`. -/
def args : (left t : ℕ) → Comp ℕ
  | 0, _ => outOfFuel
  | left + 1, t => do
      if (← tk) = Tok.rparen then return t
      else
        expr Tok.assign
        emitOp .psh
        skip Tok.comma
        args left (t + 1)

/-- A call of `d`, from the parenthesis on. -/
def call (d : ℕ) : Comp Unit := do
  next
  let t ← args expr left 0
  next
  let id ← entry d
  if id.cls = .sys then emit id.val
  else if id.cls = .fun then
    emitOp .jsr
    emit id.val
  else bad "bad function call"
  if t ≠ 0 then
    emitOp .adj
    emit (BitVec.ofNat 32 t)
  setTy id.type

/-- A name that is not called. -/
def variable_ (d : ℕ) : Comp Unit := do
  let id ← entry d
  if id.cls = .num then
    emitOp .imm
    emit id.val
    setTy Ty.int
  else
    if id.cls = .loc then
      emitOp .lea
      emit ((← loc) - id.val)
    else if id.cls = .glo then
      emitOp .imm
      emit id.val
    else bad "undefined variable"
    setTy id.type
    emitOp (loadOp id.type)

/-- An identifier. -/
def identifier : Comp Unit := do
  let d ← id
  next
  if (← tk) = Tok.lparen then call expr left d else variable_ d

/-- A cast or an expression in parentheses. -/
def parenthesis : Comp Unit := do
  next
  let t₀ ← tk
  if t₀ = Tok.int ∨ t₀ = Tok.char then
    next
    let t ← stars left (if t₀ = Tok.int then Ty.int else Ty.char)
    expect Tok.rparen "bad cast"
    expr Tok.inc
    setTy t
  else
    expr Tok.assign
    expect Tok.rparen "close paren expected"

/-- `*`. -/
def dereference : Comp Unit := do
  next
  expr Tok.inc
  let t ← ty
  if Ty.int < t then
    setTy (t - Ty.ptr)
    emitOp (loadOp (t - Ty.ptr))
  else bad "bad dereference"

/-- `&`. -/
def addressOf : Comp Unit := do
  next
  expr Tok.inc
  let w ← last
  if w = Op.lc.code ∨ w = Op.li.code then
    drop
    setTy ((← ty) + Ty.ptr)
  else bad "bad address-of"

/-- `!` and `~`: the operand and `v`, put together by `o`. -/
def complement (v : Word) (o : Op) : Comp Unit := do
  next
  expr Tok.inc
  emitOp .psh
  emitOp .imm
  emit v
  emitOp o
  setTy Ty.int

/-- The sign `+`. -/
def plus : Comp Unit := do
  next
  expr Tok.inc
  setTy Ty.int

/-- The sign `-`. -/
def minus : Comp Unit := do
  next
  emitOp .imm
  if (← tk) = Tok.num then
    emit (-(← ival))
    next
  else
    emit (-1)
    emitOp .psh
    expr Tok.inc
    emitOp .mul
  setTy Ty.int

/-- The load at the end of an lvalue becomes a push and a load, or there is a message. -/
def pushLoad (message : String) : Comp Unit := do
  let w ← last
  if w = Op.lc.code ∨ w = Op.li.code then
    drop
    emitOp .psh
    emit w
  else bad message

/-- `++` or `--` in front of an lvalue. -/
def preIncrement : Comp Unit := do
  let t ← tk
  next
  expr Tok.inc
  pushLoad "bad lvalue in pre-increment"
  emitOp .psh
  emitOp .imm
  emit (stepOf (← ty))
  emitOp (if t = Tok.inc then .add else .sub)
  emitOp (storeOp (← ty))

/-- The first part of `expr`, for the token `t`. -/
def primaryAt (t : ℕ) : Comp Unit :=
  if t = 0 then bad "unexpected eof in expression"
  else if t = Tok.num then number
  else if t = Tok.quote then string left
  else if t = Tok.sizeof then sizeof left
  else if t = Tok.id then identifier expr left
  else if t = Tok.lparen then parenthesis expr left
  else if t = Tok.mul then dereference expr
  else if t = Tok.and then addressOf expr
  else if t = Tok.bang then complement expr 0 .eq
  else if t = Tok.tilde then complement expr (-1) .xor
  else if t = Tok.add then plus expr
  else if t = Tok.sub then minus expr
  else if t = Tok.inc ∨ t = Tok.dec then preIncrement expr
  else bad "bad expression"

/-- The first part of `expr`. -/
def primary : Comp Unit := do
  primaryAt expr left (← tk)

/-! ### Operators -/

/-- `=`, after an operand of type `t`. -/
def assignment (t : ℕ) : Comp Unit := do
  next
  let w ← last
  if w = Op.lc.code ∨ w = Op.li.code then
    drop
    emitOp .psh
  else bad "bad lvalue in assignment"
  expr Tok.assign
  setTy t
  emitOp (storeOp t)

/-- `?`. -/
def conditional : Comp Unit := do
  next
  emitOp .bz
  let d ← hole
  expr Tok.assign
  expect Tok.colon "conditional missing colon"
  fill d ((← here) + 8)
  emitOp .jmp
  let d ← hole
  expr Tok.cond
  fill d (← here)

/-- `||` and `&&`: with `o` the right operand, at level `lev`, is passed over. -/
def shortcut (o : Op) (lev : ℕ) : Comp Unit := do
  next
  emitOp o
  let d ← hole
  expr lev
  fill d (← here)
  setTy Ty.int

/-- The operators that do nothing else, with the level of the right operand and the opcode. -/
def operators : List (ℕ × ℕ × Op) :=
  [(Tok.or, Tok.xor, .or), (Tok.xor, Tok.and, .xor), (Tok.and, Tok.eq, .and),
    (Tok.eq, Tok.lt, .eq), (Tok.ne, Tok.lt, .ne),
    (Tok.lt, Tok.shl, .lt), (Tok.gt, Tok.shl, .gt), (Tok.le, Tok.shl, .le), (Tok.ge, Tok.shl, .ge),
    (Tok.shl, Tok.add, .shl), (Tok.shr, Tok.add, .shr),
    (Tok.mul, Tok.inc, .mul), (Tok.div, Tok.inc, .div), (Tok.mod, Tok.inc, .mod)]

/-- One of these operators. -/
def operator (lev : ℕ) (o : Op) : Comp Unit := do
  next
  emitOp .psh
  expr lev
  emitOp o
  setTy Ty.int

/-- `*++e = PSH; *++e = IMM; *++e = sizeof(int); *++e = o`. -/
def scale (o : Op) : Comp Unit := do
  emitOp .psh
  emitOp .imm
  emit 4
  emitOp o

/-- `+`, after an operand of type `t`. -/
def addition (t : ℕ) : Comp Unit := do
  next
  emitOp .psh
  expr Tok.mul
  setTy t
  if Ty.ptr < t then scale .mul
  emitOp .add

/-- `-`, after an operand of type `t`. -/
def subtraction (t : ℕ) : Comp Unit := do
  next
  emitOp .psh
  expr Tok.mul
  if Ty.ptr < t ∧ t = (← ty) then
    emitOp .sub
    scale .div
    setTy Ty.int
  else
    setTy t
    if Ty.ptr < t then scale .mul
    emitOp .sub

/-- `++` or `--` behind an lvalue. -/
def postIncrement : Comp Unit := do
  let t ← tk
  pushLoad "bad lvalue in post-increment"
  emitOp .psh
  emitOp .imm
  emit (stepOf (← ty))
  emitOp (if t = Tok.inc then .add else .sub)
  emitOp (storeOp (← ty))
  emitOp .psh
  emitOp .imm
  emit (stepOf (← ty))
  emitOp (if t = Tok.inc then .sub else .add)
  next

/-- An index, after an operand of type `t`. -/
def index (t : ℕ) : Comp Unit := do
  next
  emitOp .psh
  expr Tok.assign
  expect Tok.rbrack "close bracket expected"
  if Ty.ptr < t then scale .mul
  else if t < Ty.ptr then bad "pointer type expected"
  emitOp .add
  setTy (t - Ty.ptr)
  emitOp (loadOp (t - Ty.ptr))

/-- One round of the loop of `expr`, for the operator `o` after an operand of type `t`. -/
def infixAt (t o : ℕ) : Comp Unit :=
  if o = Tok.assign then assignment expr t
  else if o = Tok.cond then conditional expr
  else if o = Tok.lor then shortcut expr .bnz Tok.lan
  else if o = Tok.lan then shortcut expr .bz Tok.or
  else if o = Tok.add then addition expr t
  else if o = Tok.sub then subtraction expr t
  else if o = Tok.inc ∨ o = Tok.dec then postIncrement
  else if o = Tok.brak then index expr t
  else
    match operators.lookup o with
    | some (lev, op) => operator expr lev op
    | none => bad ("compiler error tk=" ++ toString o)

/-- One round of the loop of `expr`. -/
def infix_ : Comp Unit := do
  let t ← ty
  infixAt expr t (← tk)

/-- The loop of `expr`. -/
def climb : (left lev : ℕ) → Comp Unit
  | 0, _ => outOfFuel
  | left + 1, lev => do
      if lev ≤ (← tk) then
        infix_ expr
        climb left lev
      else return ()

end Expressions

/-- `expr`. -/
def expr : (fuel lev : ℕ) → Comp Unit
  | 0, _ => outOfFuel
  | fuel + 1, lev => do
      primary (expr fuel) fuel
      climb (expr fuel) fuel lev

/-! ## Statements -/

section Statements

variable (expr : ℕ → Comp Unit) (stmt : Comp Unit)

/-- A condition in parentheses. -/
def condition : Comp Unit := do
  expect Tok.lparen "open paren expected"
  expr Tok.assign
  expect Tok.rparen "close paren expected"

/-- `if`. -/
def ifStmt : Comp Unit := do
  next
  condition expr
  emitOp .bz
  let b ← hole
  stmt
  if (← tk) = Tok.else then
    fill b ((← here) + 8)
    emitOp .jmp
    let b ← hole
    next
    stmt
    fill b (← here)
  else fill b (← here)

/-- `while`. -/
def whileStmt : Comp Unit := do
  next
  let a ← here
  condition expr
  emitOp .bz
  let b ← hole
  stmt
  emitOp .jmp
  emit a
  fill b (← here)

/-- `return`. -/
def returnStmt : Comp Unit := do
  next
  if (← tk) ≠ Tok.semi then expr Tok.assign
  emitOp .lev
  expect Tok.semi "semicolon expected"

/-- `while (tk != '}') stmt();`. -/
def block : (left : ℕ) → Comp Unit
  | 0 => outOfFuel
  | left + 1 => do
      if (← tk) = Tok.rbrace then return ()
      else
        stmt
        block left

end Statements

/-- `stmt`. -/
def stmt : (fuel : ℕ) → Comp Unit
  | 0 => outOfFuel
  | fuel + 1 => do
      let t ← tk
      if t = Tok.if then ifStmt (expr fuel) (stmt fuel)
      else if t = Tok.while then whileStmt (expr fuel) (stmt fuel)
      else if t = Tok.return then returnStmt (expr fuel)
      else if t = Tok.lbrace then
        next
        block (stmt fuel) fuel
        next
      else if t = Tok.semi then next
      else
        expr fuel Tok.assign
        expect Tok.semi "semicolon expected"

/-! ## Declarations -/

/-- The list of an `enum`, whose next member is `i`. -/
def enumList : (left : ℕ) → (i : Word) → Comp Unit
  | 0, _ => outOfFuel
  | left + 1, i => do
      let t ← tk
      if t = Tok.rbrace then return ()
      else if t ≠ Tok.id then bad ("bad enum identifier " ++ toString t)
      else
        next
        let i ← if (← tk) = Tok.assign then do
            next
            if (← tk) ≠ Tok.num then bad "bad enum initializer"
            let v ← ival
            next
            pure v
          else pure i
        setId fun d => { d with cls := .num, type := Ty.int, val := i }
        skip Tok.comma
        enumList left (i + 1)

/-- A name becomes local; what it stood for is kept. -/
def hide (t : ℕ) (i : ℕ) (d : Ident) : Ident :=
  { d with
    hCls := d.cls
    cls := .loc
    hType := d.type
    type := t
    hVal := d.val
    val := BitVec.ofNat 32 i }

/-- The parameters, of which there have been `i`. -/
def params : (left i : ℕ) → Comp ℕ
  | 0, _ => outOfFuel
  | left + 1, i => do
      if (← tk) = Tok.rparen then return i
      else
        let base ← if (← tk) = Tok.int then do
            next
            pure Ty.int
          else if (← tk) = Tok.char then do
            next
            pure Ty.char
          else pure Ty.int
        let t ← stars left base
        if (← tk) ≠ Tok.id then bad "bad parameter declaration"
        if (← entry (← id)).cls = .loc then bad "duplicate parameter definition"
        setId (hide t i)
        next
        skip Tok.comma
        params left (i + 1)

/-- The names in a declaration of local variables; the last one so far has the number `i`. -/
def locals : (left bt i : ℕ) → Comp ℕ
  | 0, _, _ => outOfFuel
  | left + 1, bt, i => do
      if (← tk) = Tok.semi then return i
      else
        let t ← stars left bt
        if (← tk) ≠ Tok.id then bad "bad local declaration"
        if (← entry (← id)).cls = .loc then bad "duplicate local definition"
        setId (hide t (i + 1))
        next
        skip Tok.comma
        locals left bt (i + 1)

/-- The declarations of local variables. -/
def localDecls : (left i : ℕ) → Comp ℕ
  | 0, _ => outOfFuel
  | left + 1, i => do
      let t ← tk
      if t = Tok.int ∨ t = Tok.char then
        next
        let i ← locals left (if t = Tok.int then Ty.int else Ty.char) i
        next
        localDecls left i
      else return i

/-- A name stands again for what it stood for. -/
def unhide (d : Ident) : Ident :=
  if d.cls = .loc then { d with cls := d.hCls, type := d.hType, val := d.hVal } else d

/-- A function, from the parenthesis behind its name on. -/
def function (fuel : ℕ) : Comp Unit := do
  let entryPoint ← here
  setId fun d => { d with cls := .fun, val := entryPoint }
  next
  let i ← params fuel 0
  next
  if (← tk) ≠ Tok.lbrace then bad "bad function definition"
  setLoc (BitVec.ofNat 32 (i + 1))
  next
  let i' ← localDecls fuel (i + 1)
  emitOp .ent
  emit (BitVec.ofNat 32 i' - (← loc))
  block (stmt fuel) fuel
  emitOp .lev
  modify fun c => { c with lex := { c.lex with sym := c.lex.sym.map unhide } }

/-- A global variable. -/
def global : Comp Unit := do
  let v ← data
  setId fun d => { d with cls := .glo, val := v }
  setData (v + 4)

/-- The names in a declaration. -/
def declarators (fuel : ℕ) : (left bt : ℕ) → Comp Unit
  | 0, _ => outOfFuel
  | left + 1, bt => do
      let t ← tk
      if t = Tok.semi ∨ t = Tok.rbrace then return ()
      else
        let ty ← stars fuel bt
        if (← tk) ≠ Tok.id then bad "bad global declaration"
        if (← entry (← id)).cls ≠ .none then bad "duplicate global definition"
        next
        setId fun d => { d with type := ty }
        if (← tk) = Tok.lparen then function fuel else global
        skip Tok.comma
        declarators fuel left bt

/-- The beginning of a declaration: the type of the names, or an `enum`. -/
def baseType (fuel : ℕ) : Comp ℕ := do
  let t ← tk
  if t = Tok.int then
    next
    return Ty.int
  else if t = Tok.char then
    next
    return Ty.char
  else if t = Tok.enum then
    next
    if (← tk) ≠ Tok.lbrace then next
    if (← tk) = Tok.lbrace then
      next
      enumList fuel 0
      next
    return Ty.int
  else return Ty.int

/-- The declarations. -/
def program (fuel : ℕ) : (left : ℕ) → Comp Unit
  | 0 => outOfFuel
  | left + 1 => do
      if (← tk) = 0 then return ()
      else
        let bt ← baseType fuel
        declarators fuel fuel bt
        next
        program fuel left

/-! ## `main` -/

/-- The names that the compiler knows. -/
def known : List UInt8 :=
  ("char else enum if int return sizeof while " ++
    "open read close printf malloc free memset memcmp exit void main").toList.map Char.toUInt8

/-- The keywords from `i` on become tokens. -/
def keywords : (left i : ℕ) → Comp Unit
  | 0, _ => return ()
  | left + 1, i => do
      next
      setId fun d => { d with tk := i }
      keywords left (i + 1)

/-- The names of the library stand for opcodes. -/
def library : List Op → Comp Unit
  | [] => return ()
  | o :: os => do
      next
      setId fun d => { d with cls := .sys, type := Ty.int, val := o.code }
      library os

/-- The state before the known names are read; `text` and `data` are the areas. -/
def start (text data : Word) : Compiler where
  lex :=
    { p := known, line := 0, sym := [], data := data, mem := fun _ => 0, tk := 0, ival := 0, id := 0 }
  text := text
  code := []
  ty := 0
  loc := 0

/-- `main` up to the run: the value is the address of the code of `main`. -/
def compile (fuel : ℕ) (source : List UInt8) : Comp Word := do
  keywords 8 Tok.char
  library [.«open», .read, .clos, .prtf, .malc, .free, .mset, .mcmp, .exit]
  next
  setId fun d => { d with tk := Tok.char }
  next
  let idmain ← id
  modify fun c => { c with lex := { c.lex with p := source, line := 1 } }
  next
  program fuel fuel
  let d ← entry idmain
  if d.val = 0 then bad "main() not defined"
  return d.val

end Comp

end BochsOs.C4
