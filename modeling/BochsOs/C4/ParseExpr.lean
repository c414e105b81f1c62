import BochsOs.C4.Emission
import BochsOs.C4.Spelling

/-!
# `expr` puts out the code of the expression

`Expr.parses`: when the tokens are those of a well-formed expression, `expr` reads them and puts out
`Expr.code`.  The loop of `expr` finds the operators on the left side of the tree one after the
other, so that `Parses` speaks of `primary` and a part of the loop: after it the loop goes on with
what follows.  The induction is on the tree; the bound on the rounds is met as long as it is
greater than what is left of the source.
-/

open BochsOs.C4.Comp BochsOs.C4.Lexer

namespace BochsOs.C4

open Relocation

namespace Comp

/-- `primary` and the loop. -/
def parse (fuel left lev : ℕ) : Comp Unit := do
  primary (expr fuel) fuel
  climb (expr fuel) left lev

end Comp

/-- `primary` and the loop read the expression, and the loop goes on. -/
def Parses (Γ : Scope) (e : Expr) : Prop :=
  ∀ (fuel left lev t : ℕ) (c : Compiler) (l l' : Lexer) (p : Piece), l.scope = Γ →
    Reads e.tokens l l' → l.left ≤ fuel → l.left ≤ left → lev ≤ e.level → l'.tk < e.stop →
    l'.tk ≠ Tok.lparen → ∃ left', l'.left < left' ∧
      parse fuel left lev (c.out l p t) =
        climb (expr fuel) left' lev (c.out l' (p ++ e.code Γ c.loc) (e.type Γ))

/-- `primary` reads the expression. -/
def ParsesPrimary (Γ : Scope) (e : Expr) : Prop :=
  ∀ (fuel t : ℕ) (c : Compiler) (l l' : Lexer) (p : Piece), l.scope = Γ → Reads e.tokens l l' →
    l.left ≤ fuel → l'.tk < e.stop → l'.tk ≠ Tok.lparen →
    primary (expr fuel) fuel (c.out l p t) = .ok ((), c.out l' (p ++ e.code Γ c.loc) (e.type Γ))

/-- One round of the loop reads the operator `o` and what is behind it, and `x` becomes `e`. -/
def ParsesInfix (Γ : Scope) (x : Expr) (o : ℕ) (ts : List Token) (e : Expr) : Prop :=
  ∀ (fuel : ℕ) (c : Compiler) (l l' : Lexer) (p : Piece), l.scope = Γ → l.tk = o →
    Reads (.sym o :: ts) l l' → l.left ≤ fuel → l'.tk < e.stop → l'.tk ≠ Tok.lparen →
    infix_ (expr fuel) (c.out l (p ++ x.code Γ c.loc) (x.type Γ)) =
      .ok ((), c.out l' (p ++ e.code Γ c.loc) (e.type Γ))

section Rules

variable {Γ : Scope} {e x y z : Expr} {fuel left lev t o : ℕ} {c : Compiler} {l l' : Lexer} {p : Piece}
  {ts : List Token}

/-- The loop ends in front of what binds less tightly. -/
theorem run_climb_stop (hleft : l.left < left) (hlev : l.tk < lev) :
    climb (expr fuel) left lev (c.out l p t) = .ok ((), c.out l p t) := by
  cases left with
  | zero => omega
  | succ left =>
      rw [climb, run_bind, run_tk, bind_ok, if_neg (not_le.mpr hlev)]
      rfl

/-- A whole expression. -/
theorem Parses.expr (h : Parses Γ e) (hscope : l.scope = Γ) (hreads : Reads e.tokens l l')
    (hfuel : l.left < fuel) (hlevel : lev ≤ e.level) (hlev : l'.tk < lev) (hstop : l'.tk < e.stop)
    (hparen : l'.tk ≠ Tok.lparen) : Comp.expr fuel lev (c.out l p t) =
      .ok ((), c.out l' (p ++ e.code Γ c.loc) (e.type Γ)) := by
  cases fuel with
  | zero => omega
  | succ fuel =>
      have hle : l.left ≤ fuel := Nat.le_of_lt_succ hfuel
      obtain ⟨left', hleft, hrun⟩ := h fuel fuel lev t c l l' p hscope hreads hle hle hlevel hstop hparen
      rw [Comp.expr]
      exact hrun.trans (run_climb_stop hleft hlev)

/-- An operand of a sign. -/
theorem Parses.operand (h : Parses Γ e) (hunary : e.Unary) (hscope : l.scope = Γ)
    (hreads : Reads e.tokens l l') (hfuel : l.left < fuel) (hstop : l'.tk < min Tok.inc e.stop)
    (hparen : l'.tk ≠ Tok.lparen) : Comp.expr fuel Tok.inc (c.out l p t) =
      .ok ((), c.out l' (p ++ e.code Γ c.loc) (e.type Γ)) :=
  h.expr hscope hreads hfuel hunary (hstop.trans_le (min_le_left _ _))
    (hstop.trans_le (min_le_right _ _)) hparen

/-- An expression up to a token that is not an operator. -/
theorem Parses.whole (h : Parses Γ e) (hscope : l.scope = Γ) (hreads : Reads e.tokens l l')
    (hfuel : l.left < fuel) (hend : l'.tk < Tok.assign) (hparen : l'.tk ≠ Tok.lparen) :
    Comp.expr fuel Tok.assign (c.out l p t) =
      .ok ((), c.out l' (p ++ e.code Γ c.loc) (e.type Γ)) :=
  h.expr hscope hreads hfuel e.assign_le_level hend (hend.trans_le e.assign_le_stop) hparen

theorem ParsesPrimary.parses (h : ParsesPrimary Γ e) : Parses Γ e := by
  intro fuel left lev t c l l' p hscope hreads hfuel hleft hlev hstop hparen
  refine ⟨left, (hreads.before e.tokens_ne_nil).left.trans_le hleft, ?_⟩
  rw [parse, run_bind, h fuel t c l l' p hscope hreads hfuel hstop hparen, bind_ok]

theorem Parses.round (hx : Parses Γ x) (htokens : e.tokens = x.tokens ++ .sym o :: ts)
    (hlevel : e.level = min o x.level) (ho : o < x.stop) (hparen : o ≠ Tok.lparen)
    (h : ParsesInfix Γ x o ts e) : Parses Γ e := by
  intro fuel left lev t c l l' p hscope hreads hfuel hleft hlev hstop hparen'
  rw [htokens] at hreads
  obtain ⟨l₁, hreads₁, hrest⟩ := reads_append.mp hreads
  obtain ⟨l₂, htakes, -⟩ := id hrest
  have htk : l₁.tk = o := htakes.tk
  rw [hlevel, le_min_iff] at hlev
  obtain ⟨left', hleft', hrun⟩ := hx fuel left lev t c l l₁ p hscope hreads₁ hfuel hleft hlev.2
    (htk ▸ ho) (htk ▸ hparen)
  cases left' with
  | zero => omega
  | succ left' =>
      have hbefore := hrest.before (List.cons_ne_nil _ _)
      have hround := h fuel c l₁ l' p (hreads₁.scope.trans hscope) htk hrest
        (hreads₁.left.trans hfuel) hstop hparen'
      refine ⟨left', by have := hbefore.left; omega, hrun.trans ?_⟩
      rw [climb, run_bind, run_tk, bind_ok, if_pos (htk ▸ hlev.1), run_bind, hround, bind_ok]

/-! ## Operands -/

theorem run_primary {f : ℕ → Comp Unit} {n k : ℕ} (htk : l.tk = k) :
    primary f n (c.out l p t) = primaryAt f n k (c.out l p t) := by
  rw [primary, run_bind, run_tk, bind_ok, htk]

theorem parses_num {v : Word} : ParsesPrimary Γ (.num v) := by
  rintro fuel t c l l' p hscope ⟨_, htakes, rfl⟩ hfuel hstop hparen
  cases htakes with
  | num htk hval hnext =>
      rw [run_primary htk]
      change Comp.number (c.out l p t) = _
      simp [Comp.number, run_next hnext, hval, Expr.code, Expr.type]

theorem run_strings_end (htk : l.tk ≠ Tok.quote) (hleft : l.left < left) :
    strings left (c.out l p t) = .ok ((), c.out l p t) := by
  cases left with
  | zero => omega
  | succ left => simp [strings, htk]

/-- String literals. -/
theorem run_strings (h : Strings l l') (hleft : l.left < left) :
    strings left (c.out l p t) = .ok ((), c.out l' p t) := by
  induction h generalizing left with
  | last htk hnext hother =>
      have hbefore := (follows_next hnext).before (by rw [htk]; decide)
      cases left with
      | zero => omega
      | succ left =>
          rw [strings, run_bind, run_tk, bind_ok, if_pos htk, run_bind, run_next hnext]
          exact run_strings_end hother (by have := hbefore.left; omega)
  | more htk hnext hmore ih =>
      have hbefore := (follows_next hnext).before (by rw [htk]; decide)
      cases left with
      | zero => omega
      | succ left =>
          rw [strings, run_bind, run_tk, bind_ok, if_pos htk, run_bind, run_next hnext]
          exact ih (by have := hbefore.left; omega)

theorem parses_str {v : Word} : ParsesPrimary Γ (.str v) := by
  rintro fuel t c l l' p hscope ⟨l₁, htakes, rfl⟩ hfuel hstop hparen
  cases htakes with
  | str hval hstr =>
      rw [run_primary hstr.tk]
      change Comp.string fuel (c.out l p t) = _
      cases hstr with
      | last htk hnext hother =>
          have hbefore := (follows_next hnext).before (by rw [htk]; decide)
          have hlt := hbefore.left.trans_le hfuel
          simp [Comp.string, run_next hnext, run_strings_end hother hlt, hval, Expr.code, Expr.type]
          rfl
      | more htk hnext hmore =>
          have hbefore := (follows_next hnext).before (by rw [htk]; decide)
          have hlt := hbefore.left.trans_le hfuel
          simp [Comp.string, run_next hnext, run_strings hmore hlt, hval, Expr.code, Expr.type]
          rfl

/-- Stars. -/
theorem run_stars {k b : ℕ} (h : Reads (List.replicate k (.sym Tok.mul)) l l') (hmul : l'.tk ≠ Tok.mul)
    (hleft : l.left < left) : stars left b (c.out l p t) = .ok (b + Ty.ptr * k, c.out l' p t) := by
  induction k generalizing l left b with
  | zero =>
      cases h
      cases left with
      | zero => omega
      | succ left => simp [stars, hmul]
  | succ k ih =>
      obtain ⟨l₁, htakes, h⟩ := h
      have hbefore := htakes.before
      cases htakes with
      | sym _ htk hnext =>
          cases left with
          | zero => omega
          | succ left =>
              have := hbefore.left
              simp [stars, htk, run_next hnext, ih h (by omega : l₁.left < left)]
              ring

/-- An entry of the symbol table. -/
theorem entry_eq {i : ℕ} (hscope : l.scope = Γ) : (l.sym[i]?.getD default).cls = (Γ i).cls ∧
    (l.sym[i]?.getD default).type = (Γ i).type ∧ (l.sym[i]?.getD default).val = (Γ i).val := by
  rw [← hscope]
  exact ⟨rfl, rfl, rfl⟩

theorem parses_name {i : ℕ} (hwf : (Expr.name i).WellFormed Γ) : ParsesPrimary Γ (.name i) := by
  rintro fuel t c l l' p hscope ⟨l₁, htakes, rfl⟩ hfuel hstop hparen
  obtain ⟨hcls, htype, hval⟩ := entry_eq (i := i) (htakes.before.scope.trans hscope)
  cases htakes with
  | name htk hid hnext =>
      rw [run_primary htk]
      change Comp.identifier (expr fuel) fuel (c.out l p t) = _
      simp only [Expr.code, Expr.type]
      obtain hi | hi | hi := hwf
      · simp [Comp.identifier, run_next hnext, hid, hparen, variable_, hcls, hi, hval]
      · simp [Comp.identifier, run_next hnext, hid, hparen, variable_, hcls, hi, hval, htype]
        rw [append_assoc]
      · simp [Comp.identifier, run_next hnext, hid, hparen, variable_, hcls, hi, hval, htype]
        rw [append_assoc]

/-- `int` or `char`, and the stars. -/
theorem run_typeName {T : TypeName} {b : ℕ} (h : Reads T.tokens l l') (hmul : l'.tk ≠ Tok.mul)
    (hleft : l.left ≤ left) : ∃ l₁, l.tk = (if T.char then Tok.char else Tok.int) ∧
      l.next = .ok l₁ ∧ stars left b (c.out l₁ p t) = .ok (b + Ty.ptr * T.stars, c.out l' p t) := by
  obtain ⟨l₁, htakes, hstars⟩ := h
  have hbefore := htakes.before
  cases htakes with
  | sym _ htk hnext => exact ⟨l₁, htk, hnext, run_stars hstars hmul (hbefore.left.trans_le hleft)⟩

theorem parses_sizeof {T : TypeName} : ParsesPrimary Γ (.sizeof T) := by
  rintro fuel t c l l' p hscope ⟨l₁, htakes, l₂, htakes₁, hreads⟩ hfuel hstop hparen
  obtain ⟨l₃, htype, l₄, htakes₃, rfl⟩ := reads_append.mp hreads
  have hleft := htakes.before.left.trans_le hfuel
  have hleft₁ := htakes₁.before.left
  have hmul : l₃.tk ≠ Tok.mul := by
    rw [htakes₃.tk]
    decide
  obtain ⟨l₅, htk₂, hnext₂, hstars⟩ := run_typeName (c := c) (p := p) (t := t)
    (b := if T.char then Ty.char else Ty.int) htype hmul
    (by omega : l₂.left ≤ fuel)
  cases htakes with
  | sym _ htk hnext =>
    cases htakes₁ with
    | sym _ htk₁ hnext₁ =>
      cases htakes₃ with
      | sym _ htk₃ hnext₃ =>
          rw [run_primary htk]
          change Comp.sizeof fuel (c.out l p t) = _
          cases hchar : T.char with
          | false =>
              rw [hchar] at htk₂ hstars
              have hty : T.ty = Ty.int + Ty.ptr * T.stars := by
                simp [TypeName.ty, hchar]
              simp at htk₂ hstars
              simp [Comp.sizeof, expect, run_next hnext, htk₁, run_next hnext₁, htk₂, run_next hnext₂,
                hstars, htk₃, run_next hnext₃, Expr.code, Expr.type, hty]
          | true =>
              rw [hchar] at htk₂ hstars
              have hty : T.ty = Ty.char + Ty.ptr * T.stars := by
                simp [TypeName.ty, hchar]
              simp at htk₂ hstars
              simp [Comp.sizeof, expect, run_next hnext, htk₁, run_next hnext₁, htk₂, run_next hnext₂,
                hstars, htk₃, run_next hnext₃, Expr.code, Expr.type, hty]

theorem parses_paren (he : Parses Γ e) : ParsesPrimary Γ (.paren e) := by
  rintro fuel t c l l' p hscope ⟨l₁, htakes, hreads⟩ hfuel hstop hparen
  obtain ⟨l₂, hreads₁, l₃, htakes₂, rfl⟩ := reads_append.mp hreads
  have hleft := htakes.before.left.trans_le hfuel
  have hscope₁ := htakes.before.scope.trans hscope
  have hint : l₁.tk ≠ Tok.int := Expr.first_ne hreads₁ (by decide)
  have hchar : l₁.tk ≠ Tok.char := Expr.first_ne hreads₁ (by decide)
  have htk₂ : l₂.tk = Tok.rparen := htakes₂.tk
  have hexpr : ∀ q t, Comp.expr fuel Tok.assign (c.out l₁ q t) =
      .ok ((), c.out l₂ (q ++ e.code Γ c.loc) (e.type Γ)) := fun q t =>
    he.whole hscope₁ hreads₁ hleft (by rw [htk₂]; decide) (by rw [htk₂]; decide)
  cases htakes with
  | sym _ htk hnext =>
    cases htakes₂ with
    | sym _ _ hnext₂ =>
        rw [run_primary htk]
        change Comp.parenthesis (expr fuel) fuel (c.out l p t) = _
        simp [parenthesis, expect, run_next hnext, hint, hchar, hexpr, htk₂, run_next hnext₂, Expr.code,
          Expr.type]

theorem parses_cast {T : TypeName} (he : Parses Γ e) (hwf : (Expr.cast T e).WellFormed Γ) :
    ParsesPrimary Γ (.cast T e) := by
  rintro fuel t c l l' p hscope ⟨l₁, htakes, hreads⟩ hfuel hstop hparen
  obtain ⟨l₂, htype, l₃, htakes₂, hreads₃⟩ := reads_append.mp hreads
  have hleft := htakes.before.left.trans_le hfuel
  have hleft₂ := htakes₂.before.left.trans_le htype.left
  have hscope₃ := htakes₂.before.scope.trans (htype.scope.trans (htakes.before.scope.trans hscope))
  have htk₂ : l₂.tk = Tok.rparen := htakes₂.tk
  obtain ⟨l₄, htk₁, hnext₁, hstars⟩ := run_typeName (c := c) (p := p) (t := t)
    (b := if T.char then Ty.char else Ty.int) htype (by rw [htk₂]; decide) hleft.le
  have hexpr : ∀ q t, Comp.expr fuel Tok.inc (c.out l₃ q t) =
      .ok ((), c.out l' (q ++ e.code Γ c.loc) (e.type Γ)) := fun q t =>
    he.operand hwf.1 hscope₃ hreads₃ (hleft₂.trans hleft) hstop hparen
  cases htakes with
  | sym _ htk hnext =>
    cases htakes₂ with
    | sym _ _ hnext₂ =>
        rw [run_primary htk]
        change Comp.parenthesis (expr fuel) fuel (c.out l p t) = _
        cases hchar : T.char with
        | false =>
            rw [hchar] at htk₁ hstars
            simp at htk₁ hstars
            simp [parenthesis, expect, run_next hnext, htk₁, run_next hnext₁, hstars, htk₂,
              run_next hnext₂, hexpr, Expr.code, Expr.type, TypeName.ty, hchar]
        | true =>
            rw [hchar] at htk₁ hstars
            simp at htk₁ hstars
            simp [parenthesis, expect, run_next hnext, htk₁, run_next hnext₁, hstars, htk₂,
              run_next hnext₂, hexpr, Expr.code, Expr.type, TypeName.ty, hchar]

/-! ## Signs -/

/-- A sign `o` and its operand: what `expr` does is left to `f`, after `next`. -/
theorem ParsesPrimary.sign {o : ℕ} {f : ℕ → Comp Unit} {e' : Expr} (he : Parses Γ e)
    (hunary : e.Unary) (htokens : e'.tokens = .sym o :: e.tokens) (hstop' : e'.stop = min Tok.inc e.stop)
    (hprimary : ∀ fuel c, primaryAt (expr fuel) fuel o c = (do next; f fuel) c)
    (hf : ∀ (fuel t : ℕ) (c : Compiler) (l l' : Lexer) (p : Piece), Reads e.tokens l l' →
      (∀ q t, Comp.expr fuel Tok.inc (c.out l q t) =
        .ok ((), c.out l' (q ++ e.code Γ c.loc) (e.type Γ))) →
      f fuel (c.out l p t) = .ok ((), c.out l' (p ++ e'.code Γ c.loc) (e'.type Γ))) :
    ParsesPrimary Γ e' := by
  intro fuel t c l l' p hscope hreads hfuel hstop hparen
  rw [htokens] at hreads
  rw [hstop'] at hstop
  obtain ⟨l₁, htakes, hreads₁⟩ := hreads
  have hleft := htakes.before.left.trans_le hfuel
  have hscope₁ := htakes.before.scope.trans hscope
  cases htakes with
  | sym _ htk hnext =>
      rw [run_primary htk, hprimary, run_bind, run_next hnext, bind_ok]
      exact hf fuel t c l₁ l' p hreads₁ fun q t => he.operand hunary hscope₁ hreads₁ hleft hstop hparen

theorem parses_deref (he : Parses Γ e) (hwf : (Expr.deref e).WellFormed Γ) :
    ParsesPrimary Γ (.deref e) := by
  obtain ⟨⟨hunary, htype⟩, -⟩ := hwf
  refine .sign he hunary (by rw [Expr.tokens]) rfl (fun _ _ => rfl) fun fuel t c l l' p hreads hexpr => ?_
  simp [hexpr, htype, Expr.code, Expr.type]
  rw [append_assoc]

theorem parses_plus (he : Parses Γ e) (hwf : (Expr.plus e).WellFormed Γ) :
    ParsesPrimary Γ (.plus e) := by
  refine .sign he hwf.1 (by rw [Expr.tokens]) rfl (fun _ _ => rfl) fun fuel t c l l' p hreads hexpr => ?_
  simp [hexpr, Expr.code, Expr.type]

theorem run_complement {v : Word} (hexpr : ∀ q t, Comp.expr fuel Tok.inc (c.out l q t) =
      .ok ((), c.out l' (q ++ e.code Γ c.loc) (e.type Γ))) {o : Op} :
    (do expr fuel Tok.inc; emitOp .psh; emitOp .imm; emit v; emitOp o; setTy Ty.int : Comp Unit)
      (c.out l p t) = .ok ((), c.out l' (p ++ (e.code Γ c.loc ++ .op .psh ++ .opWith .imm v ++ .op o))
        Ty.int) := by
  simp [hexpr]
  simp only [append_assoc]

theorem parses_lnot (he : Parses Γ e) (hwf : (Expr.lnot e).WellFormed Γ) :
    ParsesPrimary Γ (.lnot e) := by
  refine .sign he hwf.1 (by rw [Expr.tokens]) rfl (fun _ _ => rfl) fun fuel t c l l' p hreads hexpr => ?_
  exact run_complement hexpr

theorem parses_bnot (he : Parses Γ e) (hwf : (Expr.bnot e).WellFormed Γ) :
    ParsesPrimary Γ (.bnot e) := by
  refine .sign he hwf.1 (by rw [Expr.tokens]) rfl (fun _ _ => rfl) fun fuel t c l l' p hreads hexpr => ?_
  exact run_complement hexpr

/-- Behind a sign there is a number, or `-` takes its operand for an expression. -/
theorem num_or_not (hwf : e.WellFormed Γ) (hunary : e.Unary) (hreads : Reads e.tokens l l') :
    (∃ v, e = .num v) ∨ l.tk ≠ Tok.num ∧ e.literal = none := by
  obtain ⟨tok, ts, htokens, htok⟩ := e.first
  rw [htokens] at hreads
  obtain ⟨l₁, htakes, -⟩ := hreads
  rw [htakes.tk]
  cases tok with
  | num v => exact Or.inl ⟨v, Expr.eq_num hwf hunary htokens⟩
  | sym k =>
      refine Or.inr ⟨fun hk => ?_, Expr.literal_eq_none fun v hv => ?_⟩
      · obtain rfl : k = Tok.num := hk
        exact absurd htok (by decide : Tok.num ∉ prefixes)
      · subst hv
        cases htokens
  | name i =>
      refine Or.inr ⟨(by decide : Tok.id ≠ Tok.num), Expr.literal_eq_none fun v hv => ?_⟩
      subst hv
      cases htokens
  | str v =>
      refine Or.inr ⟨(by decide : Tok.quote ≠ Tok.num), Expr.literal_eq_none fun v hv => ?_⟩
      subst hv
      cases htokens

theorem parses_neg (he : Parses Γ e) (hwf : (Expr.neg e).WellFormed Γ) :
    ParsesPrimary Γ (.neg e) := by
  obtain ⟨hunary, hwfe⟩ := hwf
  refine .sign he hunary (by rw [Expr.tokens]) rfl (fun _ _ => rfl) fun fuel t c l l' p hreads hexpr => ?_
  obtain ⟨v, rfl⟩ | ⟨hnum, hliteral⟩ := num_or_not hwfe hunary hreads
  · obtain ⟨l₁, htakes, rfl⟩ := hreads
    cases htakes with
    | num htk hval hnext => simp [htk, hval, run_next hnext, Expr.code, Expr.literal, Expr.type]
  · simp [hnum, hexpr, Expr.code, hliteral, Expr.type]
    simp only [append_assoc]

/-! ## Lvalues -/

theorem loadOp_code (ty : ℕ) : (loadOp ty).code = Op.lc.code ∨ (loadOp ty).code = Op.li.code := by
  unfold loadOp
  split
  · exact Or.inl rfl
  · exact Or.inr rfl

/-- The code of an lvalue ends with a load. -/
theorem append_lvalue (hlvalue : e.lvalue Γ = true) (q : Piece) (loc : Word) :
    q ++ e.code Γ loc = q ++ e.address Γ loc ++ .op (loadOp (e.type Γ)) := by
  rw [Expr.code_lvalue Γ loc hlvalue, append_assoc]

@[simp] theorem run_pushLoad {ty : ℕ} {message : String} :
    pushLoad message (c.out l (p ++ .op (loadOp ty)) t) =
      .ok ((), c.out l (p ++ .op .psh ++ .op (loadOp ty)) t) := by
  unfold pushLoad
  simp [loadOp_code, -append_op_cells]
  rfl

theorem parses_addressOf (he : Parses Γ e) (hwf : (Expr.addressOf e).WellFormed Γ) :
    ParsesPrimary Γ (.addressOf e) := by
  obtain ⟨⟨hunary, hlvalue⟩, -⟩ := hwf
  refine .sign he hunary (by rw [Expr.tokens]) rfl (fun _ _ => rfl) fun fuel t c l l' p hreads hexpr => ?_
  simp [hexpr, append_lvalue hlvalue, loadOp_code, Expr.code, Expr.type]

/-- The step of `++` and `--`. -/
theorem stepTok_op (dec : Bool) :
    (if stepTok dec = Tok.inc then Op.add else Op.sub) = if dec then .sub else .add := by
  cases dec <;> rfl

/-- And back. -/
theorem stepTok_back (dec : Bool) :
    (if stepTok dec = Tok.inc then Op.sub else Op.add) = if dec then .add else .sub := by
  cases dec <;> rfl

theorem parses_pre {dec : Bool} (he : Parses Γ e) (hwf : (Expr.pre dec e).WellFormed Γ) :
    ParsesPrimary Γ (.pre dec e) := by
  rintro fuel t c l l' p hscope ⟨l₁, htakes, hreads⟩ hfuel hstop hparen
  obtain ⟨⟨hunary, hlvalue⟩, -⟩ := hwf
  have hexpr : ∀ q t, Comp.expr fuel Tok.inc (c.out l₁ q t) =
      .ok ((), c.out l' (q ++ e.code Γ c.loc) (e.type Γ)) := fun q t =>
    he.operand hunary (htakes.before.scope.trans hscope) hreads (htakes.before.left.trans_le hfuel)
      hstop hparen
  cases htakes with
  | sym _ htk hnext =>
      have hprimary : primary (expr fuel) fuel (c.out l p t) = preIncrement (expr fuel) (c.out l p t) := by
        rw [run_primary htk]
        cases dec with
        | false => rfl
        | true => rfl
      rw [hprimary]
      simp [preIncrement, htk, run_next hnext, hexpr, append_lvalue hlvalue, stepTok_op, Expr.code,
        Expr.type, Piece.increment]
      simp only [append_assoc]

/-! ## Calls -/

theorem run_args_end {f : ℕ → Comp Unit} {n : ℕ} (htk : l.tk = Tok.rparen) (hleft : l.left < left) :
    args f left n (c.out l p t) = .ok (n, c.out l p t) := by
  cases left with
  | zero => omega
  | succ left => simp [args, htk]

/-- The arguments of a call. -/
theorem run_args {es : List Expr} {n : ℕ} (hes : ∀ e ∈ es, Parses Γ e) (hscope : l.scope = Γ)
    (hreads : Reads (argTokens es) l l') (hend : l'.tk = Tok.rparen) (hfuel : l.left < fuel)
    (hleft : l.left < left) : ∃ t', args (expr fuel) left n (c.out l p t) =
      .ok (n + es.length, c.out l' (p ++ codeArgs Γ c.loc es) t') := by
  induction es generalizing l p t left n with
  | nil =>
      cases hreads
      exact ⟨t, by rw [run_args_end hend hleft, codeArgs, append_nil]; rfl⟩
  | cons e es ih =>
      obtain ⟨l₁, hreads₁, hrest⟩ := reads_append.mp hreads
      have hbefore := hreads₁.before e.tokens_ne_nil
      have hne : l.tk ≠ Tok.rparen := Expr.first_ne hreads₁ (by decide)
      have he : Parses Γ e := hes e List.mem_cons_self
      cases left with
      | zero => omega
      | succ left =>
          have := hbefore.left
          cases es with
          | nil =>
              cases hrest
              refine ⟨e.type Γ, ?_⟩
              have hexpr := he.whole (c := c) (p := p) (t := t) hscope hreads₁ hfuel
                (by rw [hend]; decide) (by rw [hend]; decide)
              simp [args, hne, hexpr, skip, hend, codeArgs,
                run_args_end hend (by omega : l'.left < left)]
              rw [append_assoc]
          | cons e' es =>
              obtain ⟨l₂, htakes, hreads₂⟩ := hrest
              have := htakes.before.left
              have htk : l₁.tk = Tok.comma := htakes.tk
              have hexpr := he.whole (c := c) (p := p) (t := t) hscope hreads₁ hfuel
                (by rw [htk]; decide) (by rw [htk]; decide)
              obtain ⟨t', hargs⟩ := ih (l := l₂) (p := p ++ e.code Γ c.loc ++ .op .psh) (t := e.type Γ)
                (n := n + 1) (fun x hx => hes x (List.mem_cons_of_mem _ hx))
                (htakes.before.scope.trans (hbefore.scope.trans hscope)) hreads₂ (by omega)
                (by omega : l₂.left < left)
              cases htakes with
              | sym _ _ hnext =>
                  refine ⟨t', ?_⟩
                  have hcode : codeArgs Γ c.loc (e :: e' :: es) =
                      e.code Γ c.loc ++ .op .psh ++ codeArgs Γ c.loc (e' :: es) := by rw [codeArgs]
                  simp [args, hne, hexpr, skip, htk, run_next hnext, hargs]
                  rw [hcode]
                  simp only [append_assoc]
                  exact ⟨by omega, trivial⟩

theorem parses_call {i : ℕ} {es : List Expr} (hes : ∀ e ∈ es, Parses Γ e)
    (hwf : (Expr.call i es).WellFormed Γ) : ParsesPrimary Γ (.call i es) := by
  rintro fuel t c l l' p hscope ⟨l₁, htakes, l₂, htakes₁, hreads⟩ hfuel hstop hparen
  obtain ⟨l₃, hreads₂, l₄, htakes₃, rfl⟩ := reads_append.mp hreads
  have hleft := htakes.before.left
  have hleft₁ := htakes₁.before.left
  have hscope₂ := htakes₁.before.scope.trans (htakes.before.scope.trans hscope)
  obtain ⟨hcls, htype, hval⟩ := entry_eq (i := i)
    (htakes₃.before.scope.trans (hreads₂.scope.trans hscope₂))
  have htk₁ : l₁.tk = Tok.lparen := htakes₁.tk
  obtain ⟨t', hargs⟩ := run_args (c := c) (p := p) (t := t) (n := 0) hes hscope₂ hreads₂
    htakes₃.tk (by omega : l₂.left < fuel) (by omega : l₂.left < fuel)
  cases htakes with
  | name htk hid hnext =>
    cases htakes₁ with
    | sym _ _ hnext₁ =>
      cases htakes₃ with
      | sym _ _ hnext₃ =>
          rw [run_primary htk]
          change Comp.identifier (expr fuel) fuel (c.out l p t) = _
          simp only [Expr.code, Expr.type]
          obtain ⟨hi, -⟩ := hwf
          obtain hi | hi := hi
          · simp [Comp.identifier, run_next hnext, hid, htk₁, Comp.call, run_next hnext₁, hargs,
              run_next hnext₃, hcls, hi, hval, htype]
            split
            · simp only [append_nil, append_assoc]
            · simp only [append_assoc]
          · simp [Comp.identifier, run_next hnext, hid, htk₁, Comp.call, run_next hnext₁, hargs,
              run_next hnext₃, hcls, hi, hval, htype]
            split
            · simp only [append_nil, append_assoc]
            · simp only [append_assoc]

/-! ## Operators -/

theorem run_round {f : ℕ → Comp Unit} (htk : l.tk = o) :
    infix_ f (c.out l p t) = infixAt f t o (c.out l p t) := by
  rw [infix_, run_bind, run_ty, bind_ok, run_bind, run_tk, bind_ok, htk]

/-- An operator with a right operand that ends the expression: what is done after `next` is left to
`f`. -/
theorem Parses.operator {f : ℕ → ℕ → Comp Unit} (hx : Parses Γ x) (hy : Parses Γ y)
    (hbetween : x.Between o lev y) (htokens : e.tokens = x.tokens ++ .sym o :: y.tokens)
    (hlevel : e.level = min o x.level) (hstop' : e.stop = min lev y.stop) (ho : Tok.assign ≤ o)
    (hround : ∀ fuel t c, infixAt (Comp.expr fuel) t o c = (do next; f fuel t) c)
    (hf : ∀ (fuel : ℕ) (c : Compiler) (l l' : Lexer) (p : Piece), (∀ q t,
      Comp.expr fuel lev (c.out l q t) = .ok ((), c.out l' (q ++ y.code Γ c.loc) (y.type Γ))) →
      f fuel (x.type Γ) (c.out l (p ++ x.code Γ c.loc) (x.type Γ)) =
        .ok ((), c.out l' (p ++ e.code Γ c.loc) (e.type Γ))) : Parses Γ e := by
  refine hx.round htokens hlevel hbetween.1 (fun h => ?_) ?_
  · rw [h] at ho
    exact absurd ho (by decide)
  intro fuel c l l' p hscope htk hreads hfuel hstop hparen
  obtain ⟨l₁, htakes, hreads₁⟩ := hreads
  have hleft := htakes.before.left.trans_le hfuel
  have hscope₁ := htakes.before.scope.trans hscope
  rw [hstop'] at hstop
  cases htakes with
  | sym _ _ hnext =>
      rw [run_round htk, hround, run_bind, run_next hnext, bind_ok]
      refine hf fuel c l₁ l' p fun q t => ?_
      exact hy.expr hscope₁ hreads₁ hleft hbetween.2 (hstop.trans_le (min_le_left _ _))
        (hstop.trans_le (min_le_right _ _)) hparen

theorem parses_bin {o : BinOp} (hx : Parses Γ x) (hy : Parses Γ y)
    (hwf : (Expr.bin o x y).WellFormed Γ) : Parses Γ (.bin o x y) := by
  refine .operator (f := fun fuel _ => do
      emitOp .psh; expr fuel o.level; emitOp o.op; setTy Ty.int) hx hy hwf.1 (by rw [Expr.tokens]) rfl
    rfl (assign_le_tok o) (fun fuel t c => by cases o <;> rfl) fun fuel c l l' p hexpr => ?_
  simp [hexpr, Expr.code, Expr.type]
  simp only [append_assoc]

/-- The right operand of `+` counts steps. -/
theorem run_scale {o : Op} : scale o (c.out l p t) = .ok ((), c.out l (p ++ .scale o) t) := by
  simp [scale, Piece.scale]
  simp only [append_assoc]

theorem parses_add (hx : Parses Γ x) (hy : Parses Γ y) (hwf : (Expr.add x y).WellFormed Γ) :
    Parses Γ (.add x y) := by
  refine .operator hx hy hwf.1 (by rw [Expr.tokens]) rfl rfl (by decide) (fun _ _ _ => rfl)
    fun fuel c l l' p hexpr => ?_
  simp only [Expr.code, Expr.type]
  split
  next =>
    simp [hexpr, run_scale]
    simp only [append_assoc]
  next =>
    simp [hexpr]
    simp only [append_assoc]

theorem parses_sub (hx : Parses Γ x) (hy : Parses Γ y) (hwf : (Expr.sub x y).WellFormed Γ) :
    Parses Γ (.sub x y) := by
  refine .operator hx hy hwf.1 (by rw [Expr.tokens]) rfl rfl (by decide) (fun _ _ _ => rfl)
    fun fuel c l l' p hexpr => ?_
  simp only [Expr.code, Expr.type]
  by_cases hptr : Ty.ptr < x.type Γ
  · by_cases heq : x.type Γ = y.type Γ
    · simp [hexpr, hptr, ← heq, run_scale]
      simp only [append_assoc]
    · simp [hexpr, hptr, heq, run_scale]
      simp only [append_assoc]
  · simp [hexpr, hptr]
    simp only [append_assoc]

theorem parses_assign (hx : Parses Γ x) (hy : Parses Γ y) (hwf : (Expr.assign x y).WellFormed Γ) :
    Parses Γ (.assign x y) := by
  obtain ⟨⟨hbetween, hlvalue⟩, -⟩ := hwf
  refine .operator hx hy hbetween (by rw [Expr.tokens]) rfl rfl (by decide) (fun _ _ _ => rfl)
    fun fuel c l l' p hexpr => ?_
  simp [hexpr, append_lvalue hlvalue, loadOp_code, Expr.code, Expr.type]
  simp only [append_assoc]

/-- `||` and `&&`. -/
theorem run_shortcut {o : Op} (hexpr : ∀ q t, Comp.expr fuel lev (c.out l q t) =
      .ok ((), c.out l' (q ++ y.code Γ c.loc) (y.type Γ))) :
    (do emitOp o; let d ← hole; Comp.expr fuel lev; fill d (← here); setTy Ty.int : Comp Unit)
      (c.out l p t) = .ok ((), c.out l' (p ++ .optional o (y.code Γ c.loc)) Ty.int) := by
  simp only [run_bind, run_emitOp, bind_ok, run_hole, hexpr, run_here, run_fill, run_setTy, out_optional]

theorem parses_lor (hx : Parses Γ x) (hy : Parses Γ y) (hwf : (Expr.lor x y).WellFormed Γ) :
    Parses Γ (.lor x y) := by
  refine .operator hx hy hwf.1 (by rw [Expr.tokens]) rfl rfl (by decide) (fun _ _ _ => rfl)
    fun fuel c l l' p hexpr => ?_
  rw [Expr.code, Expr.type, ← append_assoc]
  exact run_shortcut hexpr

theorem parses_lan (hx : Parses Γ x) (hy : Parses Γ y) (hwf : (Expr.lan x y).WellFormed Γ) :
    Parses Γ (.lan x y) := by
  refine .operator hx hy hwf.1 (by rw [Expr.tokens]) rfl rfl (by decide) (fun _ _ _ => rfl)
    fun fuel c l l' p hexpr => ?_
  rw [Expr.code, Expr.type, ← append_assoc]
  exact run_shortcut hexpr

theorem parses_cond (hx : Parses Γ x) (hy : Parses Γ y) (hz : Parses Γ z)
    (hwf : (Expr.cond x y z).WellFormed Γ) : Parses Γ (.cond x y z) := by
  obtain ⟨⟨hleft, hright⟩, -⟩ := hwf
  refine hx.round (by rw [Expr.tokens]) rfl hleft (by decide) ?_
  rintro fuel c l l' p hscope htk ⟨l₁, htakes, hreads⟩ hfuel hstop hparen
  obtain ⟨l₂, hreads₁, l₃, htakes₂, hreads₃⟩ := reads_append.mp hreads
  have hleft₁ := htakes.before.left.trans_le hfuel
  have hleft₃ := htakes₂.before.left.trans_le hreads₁.left
  have hscope₁ := htakes.before.scope.trans hscope
  have hscope₃ := htakes₂.before.scope.trans (hreads₁.scope.trans hscope₁)
  have htk₂ : l₂.tk = Tok.colon := htakes₂.tk
  have hexpr : ∀ q t, Comp.expr fuel Tok.assign (c.out l₁ q t) =
      .ok ((), c.out l₂ (q ++ y.code Γ c.loc) (y.type Γ)) := fun q t =>
    hy.whole hscope₁ hreads₁ hleft₁ (by rw [htk₂]; decide) (by rw [htk₂]; decide)
  have hexpr' : ∀ q t, Comp.expr fuel Tok.cond (c.out l₃ q t) =
      .ok ((), c.out l' (q ++ z.code Γ c.loc) (z.type Γ)) := fun q t =>
    hz.expr hscope₃ hreads₃ (hleft₃.trans hleft₁) hright (hstop.trans_le (min_le_left _ _))
      (hstop.trans_le (min_le_right _ _)) hparen
  cases htakes with
  | sym _ _ hnext =>
    cases htakes₂ with
    | sym _ _ hnext₂ =>
        rw [run_round htk]
        change conditional (Comp.expr fuel) (c.out l (p ++ x.code Γ c.loc) (x.type Γ)) = _
        simp only [conditional, expect, run_bind, run_next hnext, bind_ok, run_emitOp, run_hole, hexpr,
          run_tk, run_ite, htk₂, if_true, run_next hnext₂, run_here, run_fill, hexpr']
        rw [out_either rfl rfl, Expr.code, Expr.type, append_assoc]

theorem parses_post {dec : Bool} (hx : Parses Γ x) (hwf : (Expr.post dec x).WellFormed Γ) :
    Parses Γ (.post dec x) := by
  obtain ⟨⟨hleft, hlvalue⟩, -⟩ := hwf
  refine hx.round (by rw [Expr.tokens]) rfl hleft (by cases dec <;> decide) ?_
  rintro fuel c l l' p hscope htk ⟨l₁, htakes, rfl⟩ hfuel hstop hparen
  cases htakes with
  | sym _ _ hnext =>
      have hround : infixAt (Comp.expr fuel) (x.type Γ) (stepTok dec) = postIncrement := by
        cases dec <;> rfl
      rw [run_round htk, hround]
      simp [postIncrement, htk, run_next hnext, append_lvalue hlvalue, stepTok_op, stepTok_back,
        Expr.code, Expr.type, Piece.increment]
      simp only [append_assoc]

theorem parses_index (hx : Parses Γ x) (hy : Parses Γ y) (hwf : (Expr.index x y).WellFormed Γ) :
    Parses Γ (.index x y) := by
  obtain ⟨⟨hleft, htype⟩, -⟩ := hwf
  refine hx.round (by rw [Expr.tokens]) rfl hleft (by decide) ?_
  rintro fuel c l l' p hscope htk ⟨l₁, htakes, hreads⟩ hfuel hstop hparen
  obtain ⟨l₂, hreads₁, l₃, htakes₂, rfl⟩ := reads_append.mp hreads
  have hleft₁ := htakes.before.left.trans_le hfuel
  have hscope₁ := htakes.before.scope.trans hscope
  have htk₂ : l₂.tk = Tok.rbrack := htakes₂.tk
  have hexpr : ∀ q t, Comp.expr fuel Tok.assign (c.out l₁ q t) =
      .ok ((), c.out l₂ (q ++ y.code Γ c.loc) (y.type Γ)) := fun q t =>
    hy.whole hscope₁ hreads₁ hleft₁ (by rw [htk₂]; decide) (by rw [htk₂]; decide)
  cases htakes with
  | sym _ _ hnext =>
    cases htakes₂ with
    | sym _ _ hnext₂ =>
        rw [run_round htk]
        change Comp.index (Comp.expr fuel) (x.type Γ) (c.out l (p ++ x.code Γ c.loc) (x.type Γ)) = _
        simp only [Expr.code, Expr.type]
        split
        next hptr =>
          simp [Comp.index, expect, run_next hnext, hexpr, htk₂, run_next hnext₂, hptr, run_scale]
          simp only [append_assoc]
        next hptr =>
          simp [Comp.index, expect, run_next hnext, hexpr, htk₂, run_next hnext₂, hptr, not_lt.mpr htype]
          simp only [append_assoc]

end Rules

/-! ## The theorem -/

theorem wellFormed_of_mem {Γ : Scope} {es : List Expr} (hwf : ArgsWellFormed Γ es) {e : Expr}
    (he : e ∈ es) : e.WellFormed Γ := by
  induction es with
  | nil => cases he
  | cons e' es ih =>
      obtain rfl | he := List.mem_cons.mp he
      · exact hwf.1
      · exact ih hwf.2 he

/-- `expr` reads a well-formed expression and puts out its code. -/
theorem Expr.parses {Γ : Scope} {e : Expr} (hwf : e.WellFormed Γ) : Parses Γ e := by
  induction e using Expr.ind with
  | num v => exact parses_num.parses
  | str v => exact parses_str.parses
  | sizeof t => exact parses_sizeof.parses
  | name i => exact (parses_name hwf).parses
  | call i args ih =>
      exact (parses_call (fun e he => ih e he (wellFormed_of_mem hwf.2 he)) hwf).parses
  | paren e ih => exact (parses_paren (ih hwf)).parses
  | cast t e ih => exact (parses_cast (ih hwf.2) hwf).parses
  | deref e ih => exact (parses_deref (ih hwf.2) hwf).parses
  | addressOf e ih => exact (parses_addressOf (ih hwf.2) hwf).parses
  | lnot e ih => exact (parses_lnot (ih hwf.2) hwf).parses
  | bnot e ih => exact (parses_bnot (ih hwf.2) hwf).parses
  | plus e ih => exact (parses_plus (ih hwf.2) hwf).parses
  | neg e ih => exact (parses_neg (ih hwf.2) hwf).parses
  | pre dec e ih => exact (parses_pre (ih hwf.2) hwf).parses
  | post dec x ih => exact parses_post (ih hwf.2) hwf
  | index x y ihx ihy => exact parses_index (ihx hwf.2.1) (ihy hwf.2.2) hwf
  | bin o x y ihx ihy => exact parses_bin (ihx hwf.2.1) (ihy hwf.2.2) hwf
  | add x y ihx ihy => exact parses_add (ihx hwf.2.1) (ihy hwf.2.2) hwf
  | sub x y ihx ihy => exact parses_sub (ihx hwf.2.1) (ihy hwf.2.2) hwf
  | lor x y ihx ihy => exact parses_lor (ihx hwf.2.1) (ihy hwf.2.2) hwf
  | lan x y ihx ihy => exact parses_lan (ihx hwf.2.1) (ihy hwf.2.2) hwf
  | cond x y z ihx ihy ihz => exact parses_cond (ihx hwf.2.1) (ihy hwf.2.2.1) (ihz hwf.2.2.2) hwf
  | assign x y ihx ihy => exact parses_assign (ihx hwf.2.1) (ihy hwf.2.2) hwf

end BochsOs.C4
