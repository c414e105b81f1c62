import BochsOs.C4.ParseExpr

/-!
# `stmt` puts out the code of the statement

`Stmt.parses`: when the tokens are those of a well-formed statement, `stmt` reads them and puts out
`Stmt.code`.  An `else` belongs to the last `if` that can take it, so that a statement that ends
with an open `if` must not be followed by one.
-/

open BochsOs.C4.Comp BochsOs.C4.Lexer Relocation

namespace BochsOs.C4

/-- `stmt` reads the statement. -/
def ParsesStmt (Γ : Scope) (s : Stmt) : Prop :=
  ∀ (fuel t : ℕ) (c : Compiler) (l l' : Lexer) (p : Piece), l.scope = Γ → Reads s.tokens l l' →
    l.left + 1 < fuel → (s.opens = true → l'.tk ≠ Tok.else) →
    ∃ t', stmt fuel (c.out l p t) = .ok ((), c.out l' (p ++ s.code Γ c.loc) t')

section Rules

variable {Γ : Scope} {s s' : Stmt} {e : Expr} {fuel left t : ℕ} {c : Compiler} {l l' : Lexer} {p : Piece}

/-- A condition in parentheses, behind `if` or `while`. -/
theorem run_condition {ts : List Token} (he : e.WellFormed Γ) (hscope : l.scope = Γ)
    (hreads : Reads (.sym Tok.lparen :: (e.tokens ++ .sym Tok.rparen :: ts)) l l')
    (hfuel : l.left ≤ fuel) : ∃ l₁, Before l l₁ ∧ Reads ts l₁ l' ∧ ∀ q t,
      condition (expr fuel) (c.out l q t) =
        .ok ((), c.out l₁ (q ++ e.code Γ c.loc) (e.type Γ)) := by
  obtain ⟨l₁, htakes, hreads⟩ := hreads
  obtain ⟨l₂, hreads₁, l₃, htakes₂, hreads₃⟩ := reads_append.mp hreads
  have hbefore := htakes.before
  have hbefore₂ := htakes₂.before
  have htk₂ : l₂.tk = Tok.rparen := htakes₂.tk
  have hexpr : ∀ q t, Comp.expr fuel Tok.assign (c.out l₁ q t) =
      .ok ((), c.out l₂ (q ++ e.code Γ c.loc) (e.type Γ)) := fun q t =>
    (Expr.parses he).whole (hbefore.scope.trans hscope) hreads₁ (hbefore.left.trans_le hfuel)
      (by rw [htk₂]; decide) (by rw [htk₂]; decide)
  refine ⟨l₃, (hbefore.trans (hreads₁.before e.tokens_ne_nil)).trans hbefore₂, hreads₃, fun q t => ?_⟩
  cases htakes with
  | sym _ htk hnext =>
    cases htakes₂ with
    | sym _ _ hnext₂ =>
        simp [condition, expect, htk, run_next hnext, hexpr, htk₂, run_next hnext₂]

/-- An expression and a semicolon. -/
theorem run_exprSemi (he : e.WellFormed Γ) (hscope : l.scope = Γ)
    (hreads : Reads (e.tokens ++ [.sym Tok.semi]) l l') (hfuel : l.left < fuel) :
    ∃ l₁, l₁.tk = Tok.semi ∧ l₁.next = .ok l' ∧ ∀ q t, Comp.expr fuel Tok.assign (c.out l q t) =
      .ok ((), c.out l₁ (q ++ e.code Γ c.loc) (e.type Γ)) := by
  obtain ⟨l₁, hreads₁, l₂, htakes, rfl⟩ := reads_append.mp hreads
  cases htakes with
  | sym _ htk hnext =>
      exact ⟨l₁, htk, hnext, fun q t => (Expr.parses he).whole hscope hreads₁ hfuel
        (by rw [htk]; decide) (by rw [htk]; decide)⟩

theorem run_stmt {k : ℕ} (htk : l.tk = k) : stmt (fuel + 1) (c.out l p t) =
    (if k = Tok.if then ifStmt (Comp.expr fuel) (stmt fuel)
      else if k = Tok.while then whileStmt (Comp.expr fuel) (stmt fuel)
      else if k = Tok.return then returnStmt (Comp.expr fuel)
      else if k = Tok.lbrace then do
        next
        block (stmt fuel) fuel
        next
      else if k = Tok.semi then next
      else do
        Comp.expr fuel Tok.assign
        expect Tok.semi "semicolon expected") (c.out l p t) := by
  rw [stmt, run_bind, run_tk, bind_ok, htk]

theorem parses_exprStmt (he : e.WellFormed Γ) : ParsesStmt Γ (.expr e) := by
  intro fuel t c l l' p hscope hreads hfuel hopen
  cases fuel with
  | zero => omega
  | succ fuel =>
      obtain ⟨l₁, htk₁, hnext₁, hexpr⟩ := run_exprSemi (c := c) he hscope hreads
        (by omega : l.left < fuel)
      obtain ⟨_, hfirst, -⟩ := reads_append.mp hreads
      refine ⟨e.type Γ, ?_⟩
      rw [run_stmt rfl, if_neg (Expr.first_ne hfirst (by decide)),
        if_neg (Expr.first_ne hfirst (by decide)), if_neg (Expr.first_ne hfirst (by decide)),
        if_neg (Expr.first_ne hfirst (by decide)), if_neg (Expr.first_ne hfirst (by decide)), Stmt.code]
      simp [hexpr, expect, htk₁, run_next hnext₁]

theorem parses_empty : ParsesStmt Γ .empty := by
  rintro fuel t c l l' p hscope ⟨l₁, htakes, rfl⟩ hfuel hopen
  cases fuel with
  | zero => omega
  | succ fuel =>
      cases htakes with
      | sym _ htk hnext =>
          refine ⟨t, ?_⟩
          rw [run_stmt htk]
          change next (c.out l p t) = _
          rw [run_next hnext, Stmt.code, append_nil]

theorem parses_return : ParsesStmt Γ .return := by
  rintro fuel t c l l' p hscope ⟨l₁, htakes, l₂, htakes₁, rfl⟩ hfuel hopen
  cases fuel with
  | zero => omega
  | succ fuel =>
      cases htakes with
      | sym _ htk hnext =>
        cases htakes₁ with
        | sym _ htk₁ hnext₁ =>
            refine ⟨t, ?_⟩
            rw [run_stmt htk]
            change returnStmt (Comp.expr fuel) (c.out l p t) = _
            simp [returnStmt, run_next hnext, htk₁, expect, run_next hnext₁, Stmt.code]

theorem parses_returnVal (he : e.WellFormed Γ) : ParsesStmt Γ (.returnVal e) := by
  rintro fuel t c l l' p hscope ⟨l₁, htakes, hreads⟩ hfuel hopen
  cases fuel with
  | zero => omega
  | succ fuel =>
      have hleft := htakes.before.left
      obtain ⟨l₂, htk₂, hnext₂, hexpr⟩ := run_exprSemi (c := c) he
        (htakes.before.scope.trans hscope) hreads (by omega : l₁.left < fuel)
      obtain ⟨_, hfirst, -⟩ := reads_append.mp hreads
      have hsemi : l₁.tk ≠ Tok.semi := Expr.first_ne hfirst (by decide)
      cases htakes with
      | sym _ htk hnext =>
          refine ⟨e.type Γ, ?_⟩
          rw [run_stmt htk]
          change returnStmt (Comp.expr fuel) (c.out l p t) = _
          simp [returnStmt, run_next hnext, hsemi, hexpr, htk₂, expect, run_next hnext₂, Stmt.code]
          rw [append_assoc]

theorem parses_if (he : e.WellFormed Γ) (hs : ParsesStmt Γ s) : ParsesStmt Γ (.if e s) := by
  rintro fuel t c l l' p hscope ⟨l₁, htakes, hreads⟩ hfuel hopen
  cases fuel with
  | zero => omega
  | succ fuel =>
      have hbefore := htakes.before
      have hleft := hbefore.left
      have hscope₁ := hbefore.scope.trans hscope
      obtain ⟨l₂, hbefore₁, hreads₂, hcond⟩ := run_condition (c := c) he hscope₁ hreads
        (by omega : l₁.left ≤ fuel)
      have hleft₁ := hbefore₁.left
      have helse := hopen rfl
      cases htakes with
      | sym _ htk hnext =>
          obtain ⟨t', hstmt⟩ := hs fuel (e.type Γ) c l₂ l'
            (p ++ e.code Γ c.loc ++ .op .bz ++ Code.cells [0])
            (hbefore₁.scope.trans hscope₁) hreads₂ (by omega) fun _ => helse
          refine ⟨t', ?_⟩
          rw [run_stmt htk]
          change ifStmt (Comp.expr fuel) (stmt fuel) (c.out l p t) = _
          simp only [ifStmt, run_bind, run_next hnext, bind_ok, hcond, run_emitOp, run_hole, hstmt, run_tk,
            run_ite, if_neg helse, run_here, run_fill]
          rw [out_optional, Stmt.code, append_assoc]

theorem parses_ifElse (he : e.WellFormed Γ) (hclosed : s.opens = false) (hs : ParsesStmt Γ s)
    (hs' : ParsesStmt Γ s') : ParsesStmt Γ (.ifElse e s s') := by
  rintro fuel t c l l' p hscope ⟨l₁, htakes, hreads⟩ hfuel hopen
  cases fuel with
  | zero => omega
  | succ fuel =>
      have hbefore := htakes.before
      have hleft := hbefore.left
      have hscope₁ := hbefore.scope.trans hscope
      obtain ⟨l₂, hbefore₁, hreads₂, hcond⟩ := run_condition (c := c) he hscope₁ hreads
        (by omega : l₁.left ≤ fuel)
      have hleft₁ := hbefore₁.left
      have hscope₂ := hbefore₁.scope.trans hscope₁
      obtain ⟨l₃, hreads₃, l₄, htakes₃, hreads₄⟩ := reads_append.mp hreads₂
      have hleft₃ := hreads₃.left
      have hleft₄ := htakes₃.before.left
      have hscope₄ := htakes₃.before.scope.trans (hreads₃.scope.trans hscope₂)
      have htk₃ : l₃.tk = Tok.else := htakes₃.tk
      cases htakes with
      | sym _ htk hnext =>
        cases htakes₃ with
        | sym _ _ hnext₃ =>
            obtain ⟨t', hstmt⟩ := hs fuel (e.type Γ) c l₂ l₃
              (p ++ e.code Γ c.loc ++ .op .bz ++ Code.cells [0]) hscope₂ hreads₃ (by omega)
              fun h => absurd h (by rw [hclosed]; decide)
            obtain ⟨t'', hstmt'⟩ := hs' fuel t' c l₄ l'
              (p ++ e.code Γ c.loc ++ .op .bz ++
                Code.cells [Code.stop 4 (p ++ e.code Γ c.loc ++ Piece.op .bz ++ Code.cells [0] ++
                  s.code Γ c.loc) c.here + 8] ++
                s.code Γ c.loc ++ .op .jmp ++ Code.cells [0])
              hscope₄ hreads₄ (by omega) hopen
            refine ⟨t'', ?_⟩
            rw [run_stmt htk]
            change ifStmt (Comp.expr fuel) (stmt fuel) (c.out l p t) = _
            simp only [ifStmt, run_bind, run_next hnext, bind_ok, hcond, run_emitOp, run_hole, hstmt,
              run_tk, run_ite, if_pos htk₃, run_here, run_fill, run_next hnext₃, hstmt']
            rw [out_either rfl rfl, Stmt.code, append_assoc]

theorem parses_while (he : e.WellFormed Γ) (hs : ParsesStmt Γ s) : ParsesStmt Γ (.while e s) := by
  rintro fuel t c l l' p hscope ⟨l₁, htakes, hreads⟩ hfuel hopen
  cases fuel with
  | zero => omega
  | succ fuel =>
      have hbefore := htakes.before
      have hleft := hbefore.left
      have hscope₁ := hbefore.scope.trans hscope
      obtain ⟨l₂, hbefore₁, hreads₂, hcond⟩ := run_condition (c := c) he hscope₁ hreads
        (by omega : l₁.left ≤ fuel)
      have hleft₁ := hbefore₁.left
      cases htakes with
      | sym _ htk hnext =>
          obtain ⟨t', hstmt⟩ := hs fuel (e.type Γ) c l₂ l'
            (p ++ e.code Γ c.loc ++ .op .bz ++ Code.cells [0])
            (hbefore₁.scope.trans hscope₁) hreads₂ (by omega) hopen
          refine ⟨t', ?_⟩
          rw [run_stmt htk]
          change whileStmt (Comp.expr fuel) (stmt fuel) (c.out l p t) = _
          simp only [whileStmt, run_bind, run_next hnext, bind_ok, hcond, run_emitOp, run_hole, hstmt,
            run_here, run_emit, run_fill_loop]
          rw [out_loop rfl, Stmt.code]

/-! ## Blocks -/

theorem run_block_end {f : Comp Unit} (htk : l.tk = Tok.rbrace) (hleft : l.left < left) :
    block f left (c.out l p t) = .ok ((), c.out l p t) := by
  cases left with
  | zero => omega
  | succ left => simp [block, htk]

/-- Statements up to a closing brace. -/
theorem run_block {ss : List Stmt} (hss : ∀ s ∈ ss, ParsesStmt Γ s) (hscope : l.scope = Γ)
    (hreads : Reads (blockTokens ss) l l') (hend : l'.tk = Tok.rbrace) (hfuel : l.left + 1 < fuel)
    (hleft : l.left < left) : ∃ t', block (stmt fuel) left (c.out l p t) =
      .ok ((), c.out l' (p ++ codeBlock Γ c.loc ss) t') := by
  induction ss generalizing l p t left with
  | nil =>
      cases hreads
      exact ⟨t, by rw [run_block_end hend hleft, codeBlock, append_nil]⟩
  | cons s ss ih =>
      obtain ⟨l₁, hreads₁, hrest⟩ := reads_append.mp hreads
      have hbefore := hreads₁.before s.tokens_ne_nil
      have hne : l.tk ≠ Tok.rbrace := Stmt.first_ne hreads₁ (by decide)
      have helse : l₁.tk ≠ Tok.else := by
        cases ss with
        | nil =>
            cases hrest
            rw [hend]
            decide
        | cons s' ss =>
            obtain ⟨_, hfirst, -⟩ := reads_append.mp hrest
            exact Stmt.first_ne hfirst (by decide)
      cases left with
      | zero => omega
      | succ left =>
          have := hbefore.left
          obtain ⟨t', hstmt⟩ := hss s List.mem_cons_self fuel t c l l₁ p hscope hreads₁ hfuel
            fun _ => helse
          obtain ⟨t'', hblock⟩ := ih (l := l₁) (p := p ++ s.code Γ c.loc) (t := t')
            (fun x hx => hss x (List.mem_cons_of_mem _ hx)) (hbefore.scope.trans hscope) hrest (by omega)
            (by omega : l₁.left < left)
          refine ⟨t'', ?_⟩
          rw [block, run_bind, run_tk, bind_ok, if_neg hne, run_bind, hstmt, bind_ok, hblock, codeBlock,
            append_assoc]

theorem parses_block {ss : List Stmt} (hss : ∀ s ∈ ss, ParsesStmt Γ s) : ParsesStmt Γ (.block ss) := by
  rintro fuel t c l l' p hscope ⟨l₁, htakes, hreads⟩ hfuel hopen
  cases fuel with
  | zero => omega
  | succ fuel =>
      have hbefore := htakes.before
      have hleft := hbefore.left
      obtain ⟨l₂, hreads₁, l₃, htakes₂, rfl⟩ := reads_append.mp hreads
      obtain ⟨t', hblock⟩ := run_block (c := c) (p := p) (t := t) hss
        (hbefore.scope.trans hscope) hreads₁ htakes₂.tk (by omega : l₁.left + 1 < fuel)
        (by omega : l₁.left < fuel)
      cases htakes with
      | sym _ htk hnext =>
        cases htakes₂ with
        | sym _ _ hnext₂ =>
            refine ⟨t', ?_⟩
            rw [run_stmt htk]
            change (do next; block (stmt fuel) fuel; next : Comp Unit) (c.out l p t) = _
            rw [run_bind, run_next hnext, bind_ok, run_bind, hblock, bind_ok, run_next hnext₂, Stmt.code]

end Rules

/-! ## The theorem -/

theorem blockWellFormed_of_mem {Γ : Scope} {ss : List Stmt} (hwf : BlockWellFormed Γ ss) {s : Stmt}
    (hs : s ∈ ss) : s.WellFormed Γ := by
  induction ss with
  | nil => cases hs
  | cons s' ss ih =>
      obtain rfl | hs := List.mem_cons.mp hs
      · exact hwf.1
      · exact ih hwf.2 hs

/-- `stmt` reads a well-formed statement and puts out its code. -/
theorem Stmt.parses {Γ : Scope} {s : Stmt} (hwf : s.WellFormed Γ) : ParsesStmt Γ s := by
  induction s using Stmt.ind with
  | expr e => exact parses_exprStmt hwf
  | ifs c s ih => exact parses_if hwf.1 (ih hwf.2)
  | ifElse c s t ihs iht => exact parses_ifElse hwf.2.1 hwf.1 (ihs hwf.2.2.1) (iht hwf.2.2.2)
  | loop c s ih => exact parses_while hwf.1 (ih hwf.2)
  | ret => exact parses_return
  | returnVal e => exact parses_returnVal hwf
  | block ss ih => exact parses_block fun s hs => ih s hs (blockWellFormed_of_mem hwf hs)
  | empty => exact parses_empty

end BochsOs.C4
