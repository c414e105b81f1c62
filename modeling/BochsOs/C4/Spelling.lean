import BochsOs.C4.Tokens

/-!
# How the trees are written

The tokens of a tree, and the conditions under which `expr` and `stmt` find the tree in them again.
An operator is taken for the expression to its left if it binds at least as tightly as the level
that `expr` is called with.  So the operators on the left side of a tree must not bind less tightly
than this level (`Expr.level`), and an operator behind a tree must bind less tightly than the levels
that are open on its right side (`Expr.stop`).

A tree is also `WellFormed` when the errors that `expr` reports do not occur in it.
-/

namespace BochsOs.C4

/-! ## Tokens -/

/-- `int` or `char`, and the stars. -/
def TypeName.tokens (t : TypeName) : List Token :=
  .sym (if t.char then Tok.char else Tok.int) :: List.replicate t.stars (.sym Tok.mul)

/-- `--` or `++`. -/
def stepTok (dec : Bool) : ℕ := if dec then Tok.dec else Tok.inc

mutual

/-- The tokens of an expression. -/
def Expr.tokens : Expr → List Token
  | .num v => [.num v]
  | .str v => [.str v]
  | .sizeof t => .sym Tok.sizeof :: .sym Tok.lparen :: (t.tokens ++ [.sym Tok.rparen])
  | .name i => [.name i]
  | .call i args => .name i :: .sym Tok.lparen :: (argTokens args ++ [.sym Tok.rparen])
  | .paren e => .sym Tok.lparen :: (e.tokens ++ [.sym Tok.rparen])
  | .cast t e => .sym Tok.lparen :: (t.tokens ++ .sym Tok.rparen :: e.tokens)
  | .deref e => .sym Tok.mul :: e.tokens
  | .addressOf e => .sym Tok.and :: e.tokens
  | .lnot e => .sym Tok.bang :: e.tokens
  | .bnot e => .sym Tok.tilde :: e.tokens
  | .plus e => .sym Tok.add :: e.tokens
  | .neg e => .sym Tok.sub :: e.tokens
  | .pre dec e => .sym (stepTok dec) :: e.tokens
  | .post dec e => e.tokens ++ [.sym (stepTok dec)]
  | .index x y => x.tokens ++ .sym Tok.brak :: (y.tokens ++ [.sym Tok.rbrack])
  | .bin o x y => x.tokens ++ .sym o.tok :: y.tokens
  | .add x y => x.tokens ++ .sym Tok.add :: y.tokens
  | .sub x y => x.tokens ++ .sym Tok.sub :: y.tokens
  | .lor x y => x.tokens ++ .sym Tok.lor :: y.tokens
  | .lan x y => x.tokens ++ .sym Tok.lan :: y.tokens
  | .cond x y z => x.tokens ++ .sym Tok.cond :: (y.tokens ++ .sym Tok.colon :: z.tokens)
  | .assign x y => x.tokens ++ .sym Tok.assign :: y.tokens

/-- Arguments, with commas. -/
def argTokens : List Expr → List Token
  | [] => []
  | e :: es => e.tokens ++ ((if es.isEmpty then [] else [.sym Tok.comma]) ++ argTokens es)

end

mutual

/-- The tokens of a statement. -/
def Stmt.tokens : Stmt → List Token
  | .expr e => e.tokens ++ [.sym Tok.semi]
  | .if c s => .sym Tok.if :: .sym Tok.lparen :: (c.tokens ++ .sym Tok.rparen :: s.tokens)
  | .ifElse c s t => .sym Tok.if :: .sym Tok.lparen ::
      (c.tokens ++ .sym Tok.rparen :: (s.tokens ++ .sym Tok.else :: t.tokens))
  | .while c s => .sym Tok.while :: .sym Tok.lparen :: (c.tokens ++ .sym Tok.rparen :: s.tokens)
  | .return => [.sym Tok.return, .sym Tok.semi]
  | .returnVal e => .sym Tok.return :: (e.tokens ++ [.sym Tok.semi])
  | .block ss => .sym Tok.lbrace :: (blockTokens ss ++ [.sym Tok.rbrace])
  | .empty => [.sym Tok.semi]

/-- The tokens of statements one after the other. -/
def blockTokens : List Stmt → List Token
  | [] => []
  | s :: ss => s.tokens ++ blockTokens ss

end

/-- The statement ends with an `if` to which an `else` could belong. -/
def Stmt.opens : Stmt → Bool
  | .if _ _ => true
  | .ifElse _ _ t => t.opens
  | .while _ s => s.opens
  | _ => false

/-! ## Levels -/

/-- The level of an expression without an operator on its left side. -/
abbrev topLevel : ℕ := Tok.brak + 1

namespace Expr

/-- The operator on the left side that binds least tightly. -/
def level : Expr → ℕ
  | post dec x => min (stepTok dec) (level x)
  | index x _ => min Tok.brak (level x)
  | bin o x _ => min o.tok (level x)
  | add x _ => min Tok.add (level x)
  | sub x _ => min Tok.sub (level x)
  | lor x _ => min Tok.lor (level x)
  | lan x _ => min Tok.lan (level x)
  | cond x _ _ => min Tok.cond (level x)
  | assign x _ => min Tok.assign (level x)
  | _ => topLevel

/-- What follows the expression must be below this. -/
def stop : Expr → ℕ
  | cast _ e => min Tok.inc (stop e)
  | deref e => min Tok.inc (stop e)
  | addressOf e => min Tok.inc (stop e)
  | lnot e => min Tok.inc (stop e)
  | bnot e => min Tok.inc (stop e)
  | plus e => min Tok.inc (stop e)
  | neg e => min Tok.inc (stop e)
  | pre _ e => min Tok.inc (stop e)
  | bin o _ y => min o.level (stop y)
  | add _ y => min Tok.mul (stop y)
  | sub _ y => min Tok.mul (stop y)
  | lor _ y => min Tok.lan (stop y)
  | lan _ y => min Tok.or (stop y)
  | cond _ _ z => min Tok.cond (stop z)
  | assign _ y => min Tok.assign (stop y)
  | _ => topLevel

/-- `x` may stand to the left of `t`, and `y`, read at level `lev`, to the right. -/
def Between (x : Expr) (t lev : ℕ) (y : Expr) : Prop := t < x.stop ∧ lev ≤ y.level

/-- `e` may stand behind an operator that has no left operand. -/
def Unary (e : Expr) : Prop := Tok.inc ≤ e.level

end Expr

theorem assign_le_right (o : BinOp) : Tok.assign ≤ o.level := by
  cases o <;> decide

theorem assign_le_tok (o : BinOp) : Tok.assign ≤ o.tok := by
  cases o <;> decide

theorem assign_le_step (dec : Bool) : Tok.assign ≤ stepTok dec := by
  cases dec <;> decide

/-- Nothing goes on behind a token that is not an operator. -/
theorem Expr.assign_le_stop (e : Expr) : Tok.assign ≤ e.stop := by
  induction e using Expr.ind with
  | bin o x y _ ih => exact le_min (assign_le_right o) ih
  | _ => first
    | exact le_min (by decide) ‹_›
    | exact (by decide : Tok.assign ≤ topLevel)

theorem Expr.assign_le_level (e : Expr) : Tok.assign ≤ e.level := by
  induction e using Expr.ind with
  | bin o x y ih _ => exact le_min (assign_le_tok o) ih
  | post dec x ih => exact le_min (assign_le_step dec) ih
  | _ => first
    | exact le_min (by decide) ‹_›
    | exact (by decide : Tok.assign ≤ topLevel)

section WellFormed

variable (Γ : Scope)

mutual

/-- `expr` finds the expression in its tokens. -/
def Expr.WellFormed : Expr → Prop
  | .num _ => True
  | .str _ => True
  | .sizeof _ => True
  | .name i => (Γ i).cls = .num ∨ (Γ i).cls = .loc ∨ (Γ i).cls = .glo
  | .call i args => ((Γ i).cls = .sys ∨ (Γ i).cls = .fun) ∧ ArgsWellFormed args
  | .paren e => e.WellFormed
  | .cast _ e => e.Unary ∧ e.WellFormed
  | .deref e => (e.Unary ∧ Ty.int < e.type Γ) ∧ e.WellFormed
  | .addressOf e => (e.Unary ∧ e.lvalue Γ = true) ∧ e.WellFormed
  | .lnot e => e.Unary ∧ e.WellFormed
  | .bnot e => e.Unary ∧ e.WellFormed
  | .plus e => e.Unary ∧ e.WellFormed
  | .neg e => e.Unary ∧ e.WellFormed
  | .pre _ e => (e.Unary ∧ e.lvalue Γ = true) ∧ e.WellFormed
  | .post dec e => (stepTok dec < e.stop ∧ e.lvalue Γ = true) ∧ e.WellFormed
  | .index x y => (Tok.brak < x.stop ∧ Ty.ptr ≤ x.type Γ) ∧ x.WellFormed ∧ y.WellFormed
  | .bin o x y => x.Between o.tok o.level y ∧ x.WellFormed ∧ y.WellFormed
  | .add x y => x.Between Tok.add Tok.mul y ∧ x.WellFormed ∧ y.WellFormed
  | .sub x y => x.Between Tok.sub Tok.mul y ∧ x.WellFormed ∧ y.WellFormed
  | .lor x y => x.Between Tok.lor Tok.lan y ∧ x.WellFormed ∧ y.WellFormed
  | .lan x y => x.Between Tok.lan Tok.or y ∧ x.WellFormed ∧ y.WellFormed
  | .cond x y z => x.Between Tok.cond Tok.cond z ∧ x.WellFormed ∧ y.WellFormed ∧ z.WellFormed
  | .assign x y =>
      (x.Between Tok.assign Tok.assign y ∧ x.lvalue Γ = true) ∧ x.WellFormed ∧ y.WellFormed

/-- All arguments are well formed. -/
def ArgsWellFormed : List Expr → Prop
  | [] => True
  | e :: es => e.WellFormed ∧ ArgsWellFormed es

end

mutual

/-- `stmt` finds the statement in its tokens. -/
def Stmt.WellFormed : Stmt → Prop
  | .expr e => e.WellFormed Γ
  | .if c s => c.WellFormed Γ ∧ s.WellFormed
  | .ifElse c s t => s.opens = false ∧ c.WellFormed Γ ∧ s.WellFormed ∧ t.WellFormed
  | .while c s => c.WellFormed Γ ∧ s.WellFormed
  | .return => True
  | .returnVal e => e.WellFormed Γ
  | .block ss => BlockWellFormed ss
  | .empty => True

/-- All statements are well formed. -/
def BlockWellFormed : List Stmt → Prop
  | [] => True
  | s :: ss => s.WellFormed ∧ BlockWellFormed ss

end

end WellFormed

/-! ## The first token -/

/-- The tokens without a value that an expression starts with. -/
def prefixes : List ℕ :=
  [Tok.sizeof, Tok.lparen, Tok.mul, Tok.and, Tok.bang, Tok.tilde, Tok.add, Tok.sub, Tok.inc, Tok.dec]

/-- The tokens that an expression starts with. -/
def starters : List ℕ := Tok.num :: Tok.quote :: Tok.id :: prefixes

namespace Token

/-- What `next` puts into `tk`. -/
def tk : Token → ℕ
  | sym t => t
  | num _ => Tok.num
  | name _ => Tok.id
  | str _ => Tok.quote

/-- An expression starts with it. -/
def Starts : Token → Prop
  | sym t => t ∈ prefixes
  | _ => True

theorem Starts.tk_mem {t : Token} (h : t.Starts) : t.tk ∈ starters := by
  cases t with
  | sym t => exact List.mem_cons_of_mem _ (List.mem_cons_of_mem _ (List.mem_cons_of_mem _ h))
  | num v => exact List.mem_cons_self
  | name i => exact List.mem_cons_of_mem _ (List.mem_cons_of_mem _ List.mem_cons_self)
  | str v => exact List.mem_cons_of_mem _ List.mem_cons_self

end Token

theorem Lexer.Takes.tk {l l' : Lexer} {t : Token} (h : Takes t l l') : l.tk = t.tk := by
  cases h with
  | sym _ htk _ => exact htk
  | num htk _ _ => exact htk
  | name htk _ _ => exact htk
  | str _ hstr => exact hstr.tk

theorem stepTok_mem (dec : Bool) : stepTok dec ∈ prefixes := by
  cases dec <;> decide

theorem first_append {ts us vs : List Token} (h : ∃ t ts', ts = t :: ts' ∧ t.Starts)
    (hvs : vs = ts ++ us) : ∃ t ts', vs = t :: ts' ∧ t.Starts := by
  obtain ⟨t, ts', rfl, ht⟩ := h
  exact ⟨t, ts' ++ us, hvs, ht⟩

/-- The first token of an expression. -/
theorem Expr.first (e : Expr) : ∃ t ts, e.tokens = t :: ts ∧ t.Starts := by
  induction e using Expr.ind with
  | num v => exact ⟨_, _, rfl, trivial⟩
  | str v => exact ⟨_, _, rfl, trivial⟩
  | sizeof t => exact ⟨_, _, rfl, (by decide : Tok.sizeof ∈ prefixes)⟩
  | name i => exact ⟨_, _, rfl, trivial⟩
  | call i args _ => exact ⟨_, _, rfl, trivial⟩
  | paren e _ => exact ⟨_, _, rfl, (by decide : Tok.lparen ∈ prefixes)⟩
  | cast t e _ => exact ⟨_, _, rfl, (by decide : Tok.lparen ∈ prefixes)⟩
  | deref e _ => exact ⟨_, _, rfl, (by decide : Tok.mul ∈ prefixes)⟩
  | addressOf e _ => exact ⟨_, _, rfl, (by decide : Tok.and ∈ prefixes)⟩
  | lnot e _ => exact ⟨_, _, rfl, (by decide : Tok.bang ∈ prefixes)⟩
  | bnot e _ => exact ⟨_, _, rfl, (by decide : Tok.tilde ∈ prefixes)⟩
  | plus e _ => exact ⟨_, _, rfl, (by decide : Tok.add ∈ prefixes)⟩
  | neg e _ => exact ⟨_, _, rfl, (by decide : Tok.sub ∈ prefixes)⟩
  | pre dec e _ => exact ⟨_, _, rfl, stepTok_mem dec⟩
  | post dec e ih => exact first_append ih (by rw [Expr.tokens])
  | index x y ih _ => exact first_append ih (by rw [Expr.tokens])
  | bin o x y ih _ => exact first_append ih (by rw [Expr.tokens])
  | add x y ih _ => exact first_append ih (by rw [Expr.tokens])
  | sub x y ih _ => exact first_append ih (by rw [Expr.tokens])
  | lor x y ih _ => exact first_append ih (by rw [Expr.tokens])
  | lan x y ih _ => exact first_append ih (by rw [Expr.tokens])
  | cond x y z ih _ _ => exact first_append ih (by rw [Expr.tokens])
  | assign x y ih _ => exact first_append ih (by rw [Expr.tokens])

theorem Expr.first_mem {e : Expr} {l l' : Lexer} (h : Lexer.Reads e.tokens l l') :
    l.tk ∈ starters := by
  obtain ⟨t, ts, htokens, ht⟩ := e.first
  rw [htokens] at h
  obtain ⟨_, htakes, -⟩ := h
  rw [htakes.tk]
  exact ht.tk_mem

/-- An expression does not start with a token that is not a starter. -/
theorem Expr.first_ne {e : Expr} {l l' : Lexer} {t : ℕ} (h : Lexer.Reads e.tokens l l')
    (ht : t ∉ starters) : l.tk ≠ t := fun htk => ht (htk ▸ Expr.first_mem h)

theorem Expr.tokens_ne_nil (e : Expr) : e.tokens ≠ [] := by
  obtain ⟨t, ts, htokens, -⟩ := e.first
  rw [htokens]
  exact List.cons_ne_nil t ts

/-- The level of an operator with a left operand. -/
theorem level_of_le {n t : ℕ} {x : Expr} (hlevel : n = min t x.level) (h : Tok.inc ≤ n) :
    Tok.inc ≤ t ∧ x.Unary := by
  rw [hlevel, le_min_iff] at h
  exact h

theorem tok_lt_inc (o : BinOp) : o.tok < Tok.inc := by
  cases o <;> decide

theorem Expr.first_of_append {x : Expr} {t : Token} {ts us : List Token} (h : x.tokens ++ us = t :: ts) :
    ∃ ts', x.tokens = t :: ts' := by
  obtain ⟨t', ts', htokens, -⟩ := x.first
  rw [htokens] at h
  injection h with ht
  exact ⟨ts', ht ▸ htokens⟩

/-- Behind a sign, an expression that starts with a number is this number. -/
theorem Expr.eq_num {Γ : Scope} {e : Expr} {v : Word} {ts : List Token} (hwf : e.WellFormed Γ)
    (hunary : e.Unary) (h : e.tokens = .num v :: ts) : e = .num v := by
  induction e using Expr.ind generalizing ts with
  | num u =>
      cases h
      rfl
  | post dec x ih =>
      obtain ⟨ts', hx⟩ := first_of_append h
      obtain ⟨⟨-, hlvalue⟩, hwfx⟩ := hwf
      rw [ih hwfx (level_of_le rfl hunary).2 hx] at hlvalue
      cases hlvalue
  | index x y ih _ =>
      obtain ⟨ts', hx⟩ := first_of_append h
      obtain ⟨⟨-, htype⟩, hwfx, -⟩ := hwf
      rw [ih hwfx (level_of_le rfl hunary).2 hx] at htype
      exact absurd htype (by decide : ¬ Ty.ptr ≤ Ty.int)
  | bin o x y ih _ => exact absurd (level_of_le rfl hunary).1 (not_le.mpr (tok_lt_inc o))
  | add x y ih _ => exact absurd (level_of_le rfl hunary).1 (by decide)
  | sub x y ih _ => exact absurd (level_of_le rfl hunary).1 (by decide)
  | lor x y ih _ => exact absurd (level_of_le rfl hunary).1 (by decide)
  | lan x y ih _ => exact absurd (level_of_le rfl hunary).1 (by decide)
  | cond x y z ih _ _ => exact absurd (level_of_le rfl hunary).1 (by decide)
  | assign x y ih _ => exact absurd (level_of_le rfl hunary).1 (by decide)
  | _ =>
      injection h with h
      cases h

/-- The tokens that a statement starts with. -/
def stmtStarters : List ℕ :=
  Tok.if :: Tok.while :: Tok.return :: Tok.lbrace :: Tok.semi :: starters

theorem Stmt.first_mem {s : Stmt} {l l' : Lexer} (h : Lexer.Reads s.tokens l l') :
    l.tk ∈ stmtStarters := by
  have hof : ∀ {t : Token} {ts : List Token}, Lexer.Reads (t :: ts) l l' → l.tk = t.tk := by
    rintro t ts ⟨_, htakes, -⟩
    exact htakes.tk
  cases s with
  | expr e =>
      obtain ⟨l₁, h, -⟩ := Lexer.reads_append.mp h
      iterate 5 refine List.mem_cons_of_mem _ ?_
      exact Expr.first_mem h
  | _ =>
      rw [hof h, Token.tk]
      decide

theorem Stmt.first_ne {s : Stmt} {l l' : Lexer} {t : ℕ} (h : Lexer.Reads s.tokens l l')
    (ht : t ∉ stmtStarters) : l.tk ≠ t := fun htk => ht (htk ▸ Stmt.first_mem h)

theorem Stmt.tokens_ne_nil (s : Stmt) : s.tokens ≠ [] := by
  cases s with
  | expr e =>
      intro h
      exact e.tokens_ne_nil (List.append_eq_nil_iff.mp h).1
  | _ => exact List.cons_ne_nil _ _

end BochsOs.C4
