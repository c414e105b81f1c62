import BochsOs.C4.Calls
import BochsOs.C4.ParseStmt

/-!
# A function becomes its code

`Defines` follows the source of a function from the parenthesis behind its name on, with what its
parameters and local variables do to the symbol table.  `function_compiles`: the compiler puts out
`Function.code`, and behind the function its name stands for the place of this code, and every
other name for what it stood for before.
-/

open BochsOs.C4.Comp BochsOs.C4.Lexer Relocation

namespace BochsOs.C4

namespace Lexer

/-- The name at the current token becomes the local variable `i` of type `t`. -/
def declare (l : Lexer) (t i : ℕ) : Lexer := { l with sym := l.sym.modify l.id (hide t i) }

/-- The name at the current token becomes the function at `v`. -/
def define (l : Lexer) (v : Word) : Lexer :=
  { l with sym := l.sym.modify l.id fun d => { d with cls := .fun, val := v } }

/-- The local variables are gone. -/
def unhidden (l : Lexer) : Lexer := { l with sym := l.sym.map unhide }

/-! ## Declarations -/

/-- A comma, if there is one. -/
inductive Comma : Lexer → Lexer → Prop where
  | comma {l l' : Lexer} (htk : l.tk = Tok.comma) (hnext : l.next = .ok l') : Comma l l'
  | none {l : Lexer} (htk : l.tk ≠ Tok.comma) : Comma l l

/-- Stars and a name, which becomes the local variable `i`; `b` is the type without the stars. -/
inductive Declares (b i : ℕ) : Lexer → Lexer → Prop where
  | name {n : ℕ} {l l₁ l₂ l' : Lexer} (hstars : Reads (List.replicate n (.sym Tok.mul)) l l₁)
      (htk : l₁.tk = Tok.id) (hnew : (l₁.sym.getD l₁.id default).cls ≠ .loc)
      (hnext : (l₁.declare (b + Ty.ptr * n) i).next = .ok l₂) (hcomma : Comma l₂ l') :
      Declares b i l l'

/-- The type of a parameter; without one it is `int`. -/
inductive ParamType : ℕ → Lexer → Lexer → Prop where
  | int {l l' : Lexer} (htk : l.tk = Tok.int) (hnext : l.next = .ok l') : ParamType Ty.int l l'
  | char {l l' : Lexer} (htk : l.tk = Tok.char) (hnext : l.next = .ok l') : ParamType Ty.char l l'
  | none {l : Lexer} (hint : l.tk ≠ Tok.int) (hchar : l.tk ≠ Tok.char) : ParamType Ty.int l l

/-- There are `n` parameters from number `i` on, up to the closing parenthesis. -/
inductive Params : (i n : ℕ) → Lexer → Lexer → Prop where
  | nil {i : ℕ} {l : Lexer} (htk : l.tk = Tok.rparen) : Params i 0 l l
  | cons {i n b : ℕ} {l l₁ l₂ l' : Lexer} (htk : l.tk ≠ Tok.rparen) (htype : ParamType b l l₁)
      (hdecl : Declares b i l₁ l₂) (hrest : Params (i + 1) n l₂ l') : Params i (n + 1) l l'

/-- There are `n` names behind number `i`, up to the semicolon. -/
inductive Locals (b : ℕ) : (i n : ℕ) → Lexer → Lexer → Prop where
  | nil {i : ℕ} {l : Lexer} (htk : l.tk = Tok.semi) : Locals b i 0 l l
  | cons {i n : ℕ} {l l₁ l' : Lexer} (htk : l.tk ≠ Tok.semi) (hdecl : Declares b (i + 1) l l₁)
      (hrest : Locals b (i + 1) n l₁ l') : Locals b i (n + 1) l l'

/-- There are `n` local variables behind number `i`. -/
inductive LocalDecls : (i n : ℕ) → Lexer → Lexer → Prop where
  | nil {i : ℕ} {l : Lexer} (hint : l.tk ≠ Tok.int) (hchar : l.tk ≠ Tok.char) : LocalDecls i 0 l l
  | cons {i n m : ℕ} {l l₁ l₂ l₃ l' : Lexer} (htk : l.tk = Tok.int ∨ l.tk = Tok.char)
      (hnext : l.next = .ok l₁)
      (hlocals : Locals (if l.tk = Tok.int then Ty.int else Ty.char) i n l₁ l₂)
      (hnext' : l₂.next = .ok l₃) (hrest : LocalDecls (i + n) m l₃ l') : LocalDecls i (n + m) l l'

/-- The function `f` from the parenthesis behind its name up to its last brace; its code begins
at `v`. -/
inductive Defines (f : Function) (v : Word) : Lexer → Lexer → Prop where
  | intro {l l₁ l₂ l₃ l₄ l₅ l₆ : Lexer} (htk : l.tk = Tok.lparen) (hnext : (l.define v).next = .ok l₁)
      (hparams : Params 0 f.params l₁ l₂) (hnext₂ : l₂.next = .ok l₃) (hbrace : l₃.tk = Tok.lbrace)
      (hnext₃ : l₃.next = .ok l₄) (hlocals : LocalDecls (f.params + 1) f.locals l₄ l₅)
      (hscope : l₅.scope = f.scope) (hwf : BlockWellFormed f.scope f.body)
      (hbody : Reads (blockTokens f.body) l₅ l₆) (hend : l₆.tk = Tok.rbrace) :
      Defines f v l l₆.unhidden

/-! ## The names outside -/

/-- What the names stand for outside the function. -/
def outer (l : Lexer) : Scope := fun i => (unhide (l.sym.getD i default)).binding

/-- A part of a function has been read. -/
structure Within (l l' : Lexer) : Prop where
  outer : l'.outer = l.outer
  left : l'.left ≤ l.left

variable {b i n m t : ℕ} {l l' l'' : Lexer} {v : Word}

theorem unhide_of_ne {d : Ident} (h : d.cls ≠ .loc) : unhide d = d := if_neg h

/-- A name that was hidden stands for what it stood for. -/
theorem unhide_hide (t i : ℕ) (d : Ident) : (unhide (hide t i d)).binding = d.binding := rfl

theorem getD_modify (ds : List Ident) (f : Ident → Ident) (k j : ℕ) :
    (ds.modify k f).getD j default =
      if k = j ∧ j < ds.length then f (ds.getD j default) else ds.getD j default := by
  rw [List.getD_eq_getElem?_getD, List.getElem?_modify, List.getD_eq_getElem?_getD]
  obtain hlt | hge := lt_or_ge j ds.length
  · rw [List.getElem?_eq_getElem hlt]
    by_cases hk : k = j
    · simp [hk, hlt]
    · simp [hk]
  · rw [List.getElem?_eq_none hge]
    simp [not_lt.mpr hge]

theorem Grows.outer (h : Grows l l') : l'.outer = l.outer := by
  funext i
  unfold Lexer.outer
  obtain hsame | ⟨hnone, hnew⟩ := h.entry i
  · rw [hsame]
  · have hcls : (l'.sym.getD i default).cls = .none := congrArg Binding.cls hnew
    rw [hnone, unhide_of_ne (by rw [hcls]; decide), unhide_of_ne (by decide)]
    exact hnew

theorem outer_declare (hnew : (l.sym.getD l.id default).cls ≠ .loc) :
    (l.declare t i).outer = l.outer := by
  funext j
  unfold outer declare
  dsimp only
  rw [getD_modify]
  split
  next hj => rw [unhide_hide, ← hj.1, unhide_of_ne hnew]
  next => rfl

theorem scope_unhidden : l.unhidden.scope = l.outer := by
  funext i
  unfold scope outer unhidden
  dsimp only
  rw [List.getD_eq_getElem?_getD, List.getD_eq_getElem?_getD, List.getElem?_map]
  cases l.sym[i]? with
  | none => rfl
  | some d => rfl

/-- Where no name is local, the name of a function comes to stand for it. -/
theorem outer_define (hname : l.id < l.sym.length) (hplain : ∀ i, (l.scope i).cls ≠ .loc) (i : ℕ) :
    (l.define v).outer i = if i = l.id then ⟨.fun, (l.scope i).type, v⟩ else l.scope i := by
  unfold outer define
  dsimp only
  rw [getD_modify]
  by_cases hi : i = l.id
  · rw [if_pos ⟨hi.symm, hi ▸ hname⟩, if_pos hi, unhide_of_ne (show Class.fun ≠ Class.loc by decide)]
    rfl
  · rw [if_neg (fun h => hi h.1.symm), if_neg hi, unhide_of_ne (hplain i)]
    rfl

theorem Within.refl : Within l l := ⟨rfl, le_rfl⟩

theorem Within.trans (h : Within l l') (h' : Within l' l'') : Within l l'' where
  outer := h'.outer.trans h.outer
  left := h'.left.trans h.left

theorem Follows.within (h : Follows l l') : Within l l' := ⟨h.grows.outer, h.left.trans length_le_left⟩

theorem Reads.within {ts : List Token} (h : Reads ts l l') : Within l l' := ⟨h.grows.outer, h.left⟩

theorem Comma.within (h : Comma l l') : Within l l' := by
  cases h with
  | comma _ hnext => exact (follows_next hnext).within
  | none _ => exact .refl

theorem ParamType.within (h : ParamType b l l') : Within l l' := by
  cases h with
  | int _ hnext => exact (follows_next hnext).within
  | char _ hnext => exact (follows_next hnext).within
  | none _ _ => exact .refl

theorem Declares.outer (h : Declares b i l l') : l'.outer = l.outer := by
  cases h with
  | name hstars _ hnew hnext hcomma =>
      have hdeclare := (follows_next hnext).within.outer.trans (outer_declare hnew)
      exact hcomma.within.outer.trans (hdeclare.trans hstars.within.outer)

theorem Declares.left (h : Declares b i l l') : l'.left < l.left := by
  cases h with
  | name hstars htk _ hnext hcomma =>
      have hdeclare := ((follows_next hnext).before (fun h => by cases htk.symm.trans h)).left
      exact hcomma.within.left.trans_lt (hdeclare.trans_le hstars.left)

theorem Declares.within (h : Declares b i l l') : Within l l' := ⟨h.outer, h.left.le⟩

theorem Params.within (h : Params i n l l') : Within l l' := by
  induction h with
  | nil _ => exact .refl
  | cons _ htype hdecl _ ih => exact (htype.within.trans hdecl.within).trans ih

theorem Locals.within (h : Locals b i n l l') : Within l l' := by
  induction h with
  | nil _ => exact .refl
  | cons _ hdecl _ ih => exact hdecl.within.trans ih

theorem LocalDecls.within (h : LocalDecls i n l l') : Within l l' := by
  induction h with
  | nil _ _ => exact .refl
  | cons _ hnext hlocals hnext' _ ih =>
      have hdecls := ((follows_next hnext).within.trans hlocals.within).trans (follows_next hnext').within
      exact hdecls.trans ih

/-- Behind a function its name stands for it, and the others for what they stood for. -/
theorem Defines.scope {f : Function} (h : Defines f v l l') (hname : l.id < l.sym.length)
    (hplain : ∀ i, (l.scope i).cls ≠ .loc) (i : ℕ) :
    l'.scope i = if i = l.id then ⟨.fun, (l.scope i).type, v⟩ else l.scope i := by
  cases h with
  | intro _ hnext hparams hnext₂ _ hnext₃ hlocals _ _ hbody _ =>
      have hhead := ((follows_next hnext).within.trans hparams.within).trans (follows_next hnext₂).within
      have htail := ((follows_next hnext₃).within.trans hlocals.within).trans hbody.within
      rw [scope_unhidden, (hhead.trans htail).outer, outer_define hname hplain]

end Lexer

/-! ## What the compiler does -/

section Rules

variable {b i n t left fuel : ℕ} {c : Compiler} {l l' : Lexer} {p : Piece} {f : Function} {v : Word}

theorem ne_zero_of_type (htk : l.tk = Tok.int ∨ l.tk = Tok.char) : l.tk ≠ 0 := by
  obtain htk | htk := htk
  · rw [htk]
    decide
  · rw [htk]
    decide

@[simp] theorem run_declare {k : ℕ} : setId (hide k i) (c.out l p t) =
    .ok ((), c.out (l.declare k i) p t) := rfl

@[simp] theorem run_define : setId (fun d => { d with cls := .fun, val := v }) (c.out l p t) =
    .ok ((), c.out (l.define v) p t) := rfl

@[simp] theorem run_setLoc : setLoc v (c.out l p t) =
    .ok ((), Compiler.out { c with loc := v } l p t) := rfl

@[simp] theorem run_unhide : (modify fun c : Compiler =>
      { c with lex := { c.lex with sym := c.lex.sym.map unhide } } : Comp Unit) (c.out l p t) =
    .ok ((), c.out l.unhidden p t) := rfl

theorem run_skip (h : Comma l l') : skip Tok.comma (c.out l p t) = .ok ((), c.out l' p t) := by
  cases h with
  | comma htk hnext => simp [skip, htk, run_next hnext]
  | none htk => simp [skip, htk]

/-- The steps of the declaration of a name. -/
theorem Lexer.Declares.run (h : Declares b i l l') (hleft : l.left < left) : ∃ l₁ l₂ k,
    stars left b (c.out l p t) = .ok (k, c.out l₁ p t) ∧ l₁.tk = Tok.id ∧
      (l₁.sym[l₁.id]?.getD default).cls ≠ .loc ∧ (l₁.declare k i).next = .ok l₂ ∧
      skip Tok.comma (c.out l₂ p t) = .ok ((), c.out l' p t) := by
  cases h with
  | name hstars htk hnew hnext hcomma =>
      exact ⟨_, _, _, run_stars hstars (by rw [htk]; decide) hleft, htk, hnew, hnext, run_skip hcomma⟩

theorem run_params (h : Params i n l l') (hleft : l.left + 1 < left) :
    params left i (c.out l p t) = .ok (i + n, c.out l' p t) := by
  induction h generalizing left with
  | nil htk =>
      cases left with
      | zero => omega
      | succ left => simp [params, htk]
  | cons htk htype hdecl hrest ih =>
      cases left with
      | zero => omega
      | succ left =>
          have hle := htype.within.left
          have hlt := hdecl.left
          obtain ⟨l₁, l₂, k, hstars, hid, hnew, hnext, hskip⟩ :=
            hdecl.run (c := c) (p := p) (t := t) (by omega : _ < left)
          have hrun := ih (by omega : _ < left)
          cases htype with
          | int hint hnextInt =>
              simp [params, hint, run_next hnextInt, hstars, hid, hnew, run_next hnext, hskip, hrun]
              omega
          | char hchar hnextChar =>
              simp [params, hchar, run_next hnextChar, hstars, hid, hnew, run_next hnext, hskip, hrun]
              omega
          | none hint hchar =>
              simp [params, htk, hint, hchar, hstars, hid, hnew, run_next hnext, hskip, hrun]
              omega

theorem run_locals (h : Locals b i n l l') (hleft : l.left + 1 < left) :
    locals left b i (c.out l p t) = .ok (i + n, c.out l' p t) := by
  induction h generalizing left with
  | nil htk =>
      cases left with
      | zero => omega
      | succ left => simp [locals, htk]
  | cons htk hdecl hrest ih =>
      cases left with
      | zero => omega
      | succ left =>
          have hlt := hdecl.left
          obtain ⟨l₁, l₂, k, hstars, hid, hnew, hnext, hskip⟩ :=
            hdecl.run (c := c) (p := p) (t := t) (by omega : _ < left)
          have hrun := ih (by omega : _ < left)
          simp [locals, htk, hstars, hid, hnew, run_next hnext, hskip, hrun]
          omega

theorem run_localDecls (h : LocalDecls i n l l') (hleft : l.left + 1 < left) :
    localDecls left i (c.out l p t) = .ok (i + n, c.out l' p t) := by
  induction h generalizing left with
  | nil hint hchar =>
      cases left with
      | zero => omega
      | succ left => simp [localDecls, hint, hchar]
  | cons htk hnext hlocals hnext' hrest ih =>
      cases left with
      | zero => omega
      | succ left =>
          have hbefore := ((follows_next hnext).before (ne_zero_of_type htk)).left
          have hafter := (follows_next hnext').within.left
          have hle := hlocals.within.left
          have hrun := run_locals (c := c) (p := p) (t := t) hlocals (by omega : _ < left)
          have hrest := ih (by omega : _ < left)
          simp only [localDecls, run_bind, run_tk, bind_ok, run_ite, if_pos htk, run_next hnext, hrun,
            run_next hnext', hrest]
          rw [add_assoc]

/-- `function` puts out the code of the function. -/
theorem function_parses (h : Defines f c.here l l') (hfuel : l.left + 1 < fuel) : ∃ t',
    function fuel (c.out l .nil t) =
      .ok ((), Compiler.out { c with loc := f.loc } l' f.code t') := by
  cases h with
  | intro htk hnext hparams hnext₂ hbrace hnext₃ hlocals hscope hwf hbody hend =>
      have hleft := (follows_next hnext).within.left
      have hleft₁ := hparams.within.left
      have hleft₂ := (follows_next hnext₂).within.left
      have hleft₃ := (follows_next hnext₃).within.left
      have hleft₄ := hlocals.within.left
      change _ ≤ l.left at hleft
      obtain ⟨t', hblock⟩ := run_block (c := { c with loc := f.loc })
        (p := .opWith .ent (BitVec.ofNat 32 f.locals)) (t := t)
        (fun s hs => Stmt.parses (blockWellFormed_of_mem hwf hs)) hscope hbody hend
        (by omega : _ < fuel) (by omega : _ < fuel)
      have hparams' := run_params (c := c) (p := .nil) (t := t) hparams (by omega : _ < fuel)
      have hlocals' := run_localDecls (c := { c with loc := f.loc }) (p := .nil) (t := t) hlocals
        (by omega : _ < fuel)
      have hcount : BitVec.ofNat 32 (f.params + 1 + f.locals) - f.loc = BitVec.ofNat 32 f.locals := by
        rw [BitVec.ofNat_add, Function.loc, add_sub_cancel_left]
      refine ⟨t', ?_⟩
      rw [Nat.zero_add] at hparams'
      simp only [function, run_bind, run_here, bind_ok, stop_nil, run_define, run_next hnext, hparams',
        run_next hnext₂, run_tk, run_ite, hbrace, ne_eq, not_true_eq_false, if_false,
        run_setLoc, run_next hnext₃]
      change (localDecls fuel (f.params + 1) (Compiler.out { c with loc := f.loc } _ .nil t)).bind _ = _
      rw [hlocals']
      simp only [bind_ok, run_emitOp, run_loc, run_emit, nil_append, hcount, op_cells,
        hblock]
      rfl

/-- From the parenthesis behind its name on a function becomes its code, and behind it the names
stand for what they should. -/
theorem function_compiles (h : Defines f c.here c.lex l') (hfuel : c.lex.left + 1 < fuel)
    (hname : c.lex.id < c.lex.sym.length) (hplain : ∀ i, (c.lex.scope i).cls ≠ .loc) :
    ∃ c', function fuel c = .ok ((), c') ∧ c'.lex = l' ∧ c'.code = c.code ++ f.code c.here ∧
      ∀ i, c'.lex.scope i =
        if i = c.lex.id then ⟨.fun, (c.lex.scope i).type, c.here⟩ else c.lex.scope i := by
  obtain ⟨t', hrun⟩ := function_parses (t := c.ty) h hfuel
  rw [out_nil] at hrun
  exact ⟨_, hrun, rfl, rfl, h.scope hname hplain⟩

end Rules

/-! The function `main(c, v) { int b; b = c; return b + n; }`, where `n` is a constant and whose name
has been read. -/

/-- The source behind the parenthesis. -/
def plusThreeSource : List UInt8 :=
  [99, 44, 118, 41, 123, 105, 110, 116, 32, 98, 59, 98, 61, 99, 59, 114, 101, 116, 117, 114, 110, 32, 98, 43,
    110, 59, 125]

/-- An entry of the symbol table that stands for nothing, whose name stands in front of `p`. -/
def newIdent (tk : ℕ) (c : UInt8) (cs p : List UInt8) : Ident :=
  { tk := tk, hash := identHash c cs, name := c :: cs ++ p }

/-- Three keywords and `main`. -/
def keywordSym : List Ident :=
  [newIdent Tok.enum 101 [110, 117, 109] [], newIdent Tok.int 105 [110, 116] [],
    newIdent Tok.return 114 [101, 116, 117, 114, 110] [], newIdent Tok.id 109 [97, 105, 110] []]

/-- `main` has got its type, and `n` is 3 since `enum {n=3}`, right in front of `main`. -/
def plusThreeSym : List Ident :=
  keywordSym.modify 3 (fun d => { d with type := Ty.int }) ++
    [{ newIdent Tok.id 110 [] ([61, 51, 125, 109, 97, 105, 110, 40] ++ plusThreeSource) with
      cls := .num, type := Ty.int, val := 3 }]

/-- The compiler in front of the parenthesis. -/
def plusThree : Compiler where
  lex :=
    { p := plusThreeSource, line := 1, sym := plusThreeSym, data := 0, mem := fun _ => 0,
      tk := Tok.lparen, ival := 3, id := 3 }
  text := 4096
  code := []
  ty := 0
  loc := 0

/-- The parameters and the local variable. -/
def plusThreeLocals : List Ident :=
  [hide Ty.int 0 (newIdent Tok.id 99 [] (plusThreeSource.drop 1)),
    hide Ty.int 1 (newIdent Tok.id 118 [] (plusThreeSource.drop 3)),
    hide Ty.int 4 (newIdent Tok.id 98 [] (plusThreeSource.drop 10))]

/-- In front of the first statement. -/
def plusThreeBody : Lexer :=
  { plusThree.lex.define 4100 with
    p := plusThreeSource.drop 12
    sym := (plusThree.lex.define 4100).sym ++ plusThreeLocals
    tk := Tok.id
    id := 7 }

/-- The function. -/
def plusThreeFunction : Function :=
  ⟨2, 1, plusThreeBody.scope, [.expr (.assign (.name 7) (.name 5)), .returnVal (.add (.name 7) (.name 4))]⟩

/-- Behind the function. -/
def plusThreeEnd : Lexer := Lexer.unhidden { plusThreeBody with p := [], tk := Tok.rbrace, id := 4 }

theorem defines_plusThree : Defines plusThreeFunction 4100 plusThree.lex plusThreeEnd := by
  have hparams : Params 0 2
      { plusThree.lex.define 4100 with
        p := plusThreeSource.drop 1
        sym := (plusThree.lex.define 4100).sym ++ [newIdent Tok.id 99 [] (plusThreeSource.drop 1)]
        tk := Tok.id
        id := 5 }
      { plusThree.lex.define 4100 with
        p := plusThreeSource.drop 4
        sym := (plusThree.lex.define 4100).sym ++ plusThreeLocals.take 2
        tk := Tok.rparen
        id := 6 } :=
    .cons (by decide) (.none (by decide) (by decide))
      (.name (n := 0) rfl rfl (by decide) rfl (.comma rfl rfl))
      (.cons (by decide) (.none (by decide) (by decide))
        (.name (n := 0) rfl rfl (by decide) rfl (.none (by decide))) (.nil rfl))
  have hlocals : LocalDecls 3 1
      { plusThree.lex.define 4100 with
        p := plusThreeSource.drop 8
        sym := (plusThree.lex.define 4100).sym ++ plusThreeLocals.take 2
        tk := Tok.int
        id := 1 } plusThreeBody :=
    .cons (n := 1) (m := 0) (Or.inl rfl) rfl
      (.cons (by decide) (.name (n := 0) rfl rfl (by decide) rfl (.none (by decide))) (.nil rfl)) rfl
      (.nil (by decide) (by decide))
  have hbody : Reads (blockTokens plusThreeFunction.body) plusThreeBody
      { plusThreeBody with p := [], tk := Tok.rbrace, id := 4 } :=
    ⟨_, .name rfl rfl rfl, _, .sym (by decide) rfl rfl, _, .name rfl rfl rfl, _, .sym (by decide) rfl rfl,
      _, .sym (by decide) rfl rfl, _, .name rfl rfl rfl, _, .sym (by decide) rfl rfl, _, .name rfl rfl rfl,
      _, .sym (by decide) rfl rfl, rfl⟩
  have hb : (Expr.name 7).WellFormed plusThreeFunction.scope := Or.inr (Or.inl rfl)
  have hc : (Expr.name 5).WellFormed plusThreeFunction.scope := Or.inr (Or.inl rfl)
  have hn : (Expr.name 4).WellFormed plusThreeFunction.scope := Or.inl rfl
  exact .intro rfl rfl hparams rfl rfl rfl hlocals rfl
    ⟨⟨⟨⟨by decide, by decide⟩, rfl⟩, hb, hc⟩, ⟨⟨by decide, by decide⟩, hb, hn⟩, trivial⟩ hbody rfl

theorem function_compiles_plusThree : ∃ c', function 30 plusThree = .ok ((), c') ∧ c'.lex = plusThreeEnd ∧
    c'.code = plusThree.code ++ plusThreeFunction.code plusThree.here ∧
      ∀ i, c'.lex.scope i =
        if i = plusThree.lex.id then ⟨.fun, (plusThree.lex.scope i).type, plusThree.here⟩
        else plusThree.lex.scope i := by
  refine function_compiles defines_plusThree (by decide) (by decide) fun i => ?_
  rcases i with _ | _ | _ | _ | _ | i
  · decide
  · decide
  · decide
  · decide
  · decide
  · exact fun h => by cases h

end BochsOs.C4
