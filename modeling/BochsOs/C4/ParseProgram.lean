import BochsOs.C4.CodegenRuns
import BochsOs.C4.ParseFunction

/-!
# A source becomes its functions

`Source` follows the declarations of a source, up to its end.  `program_compiles`: the compiler puts
out the code of the functions one after the other.  `program_runs` takes this to the machine: when
this code lies in the memory from the place on for which it was compiled, the machine that `c4`
starts at one of the functions exits with the value of this function.
-/

open BochsOs.C4.Comp BochsOs.C4.Lexer ByteMemory Relocation BochsOs.C4.Vm

namespace BochsOs.C4

/-- The code of functions one after the other. -/
def codeAll : List Function → Piece
  | [] => .nil
  | f :: fs => f.code ++ codeAll fs

/-- The functions and the places of their code, from `v` on. -/
def layout : (v : Word) → List Function → List (Word × Function)
  | _, [] => []
  | v, f :: fs => (v, f) :: layout (f.code.stop 4 v) fs

theorem codeAll_append (fs gs : List Function) : codeAll (fs ++ gs) = codeAll fs ++ codeAll gs := by
  induction fs with
  | nil => exact (nil_append _).symm
  | cons f fs ih => rw [List.cons_append, codeAll, codeAll, ih, append_assoc]

/-- Each function of the layout lies at its place. -/
theorem placed_layout {text : Word → Word → Prop} {fs : List Function} {u v : Word} {f : Function}
    (h : Placed 4 text v (codeAll fs v)) (hf : (u, f) ∈ layout v fs) : Placed 4 text u (f.code u) := by
  induction fs generalizing v with
  | nil => cases hf
  | cons g fs ih =>
      obtain ⟨hg, hfs⟩ := placed_seq.mp h
      obtain hsame | hf := List.mem_cons.mp hf
      · cases hsame
        exact hg
      · exact ih hfs hf

namespace Lexer

/-- The name at the current token gets a type. -/
def typed (l : Lexer) (t : ℕ) : Lexer :=
  { l with sym := l.sym.modify l.id fun d => { d with type := t } }

/-- It becomes a global variable. -/
def allocate (l : Lexer) : Lexer :=
  { l with
    sym := l.sym.modify l.id fun d => { d with cls := .glo, val := l.data }
    data := l.data + 4 }

/-- It becomes a constant. -/
def constant (l : Lexer) (v : Word) : Lexer :=
  { l with sym := l.sym.modify l.id fun d => { d with cls := .num, type := Ty.int, val := v } }

/-! ## Sources -/

/-- The value of a member of an `enum`; without one it is `i`. -/
inductive EnumValue (i : Word) : Word → Lexer → Lexer → Prop where
  | next {l : Lexer} (htk : l.tk ≠ Tok.assign) : EnumValue i i l l
  | given {l l₁ l' : Lexer} (htk : l.tk = Tok.assign) (hnext : l.next = .ok l₁) (hnum : l₁.tk = Tok.num)
      (hnext' : l₁.next = .ok l') : EnumValue i l₁.ival l l'

/-- The members of an `enum` from the value `i` on, up to the brace. -/
inductive EnumList : Word → Lexer → Lexer → Prop where
  | nil {i : Word} {l : Lexer} (htk : l.tk = Tok.rbrace) : EnumList i l l
  | cons {i v : Word} {l l₁ l₂ l₃ l' : Lexer} (htk : l.tk = Tok.id) (hnext : l.next = .ok l₁)
      (hvalue : EnumValue i v l₁ l₂) (hcomma : Comma (l₂.constant v) l₃)
      (hrest : EnumList (v + 1) l₃ l') : EnumList i l l'

/-- The name of an `enum`, if there is one. -/
inductive EnumName : Lexer → Lexer → Prop where
  | name {l l' : Lexer} (htk : l.tk ≠ Tok.lbrace) (hnext : l.next = .ok l') : EnumName l l'
  | none {l : Lexer} (htk : l.tk = Tok.lbrace) : EnumName l l

/-- The beginning of a declaration, which gives the type of the names in it. -/
inductive BaseType : ℕ → Lexer → Lexer → Prop where
  | int {l l' : Lexer} (htk : l.tk = Tok.int) (hnext : l.next = .ok l') : BaseType Ty.int l l'
  | char {l l' : Lexer} (htk : l.tk = Tok.char) (hnext : l.next = .ok l') : BaseType Ty.char l l'
  | enum {l l₁ l₂ l₃ l₄ l' : Lexer} (htk : l.tk = Tok.enum) (hnext : l.next = .ok l₁)
      (hname : EnumName l₁ l₂) (hbrace : l₂.tk = Tok.lbrace) (hnext₂ : l₂.next = .ok l₃)
      (hlist : EnumList 0 l₃ l₄) (hnext₄ : l₄.next = .ok l') : BaseType Ty.int l l'
  | enumType {l l₁ l' : Lexer} (htk : l.tk = Tok.enum) (hnext : l.next = .ok l₁)
      (hname : EnumName l₁ l') (hbrace : l'.tk ≠ Tok.lbrace) : BaseType Ty.int l l'
  | none {l : Lexer} (hint : l.tk ≠ Tok.int) (hchar : l.tk ≠ Tok.char) (henum : l.tk ≠ Tok.enum) :
      BaseType Ty.int l l

/-- Stars and a name that stands for nothing yet, and the type of it. -/
inductive NewName (b : ℕ) : ℕ → Lexer → Lexer → Prop where
  | name {n : ℕ} {l l₁ l' : Lexer} (hstars : Reads (List.replicate n (.sym Tok.mul)) l l₁)
      (htk : l₁.tk = Tok.id) (hnew : (l₁.sym.getD l₁.id default).cls = .none)
      (hnext : l₁.next = .ok l') : NewName b (b + Ty.ptr * n) l l'

/-- The names in a declaration; the code of the functions `fs` among them begins at `v`. -/
inductive Declarators (b : ℕ) : Word → List Function → Lexer → Lexer → Prop where
  | nil {v : Word} {l : Lexer} (htk : l.tk = Tok.semi ∨ l.tk = Tok.rbrace) : Declarators b v [] l l
  | function {t : ℕ} {v : Word} {f : Function} {fs : List Function} {l l₁ l₂ l₃ l' : Lexer}
      (htk : ¬(l.tk = Tok.semi ∨ l.tk = Tok.rbrace)) (hname : NewName b t l l₁)
      (hdef : Defines f v (l₁.typed t) l₂) (hcomma : Comma l₂ l₃)
      (hrest : Declarators b (f.code.stop 4 v) fs l₃ l') : Declarators b v (f :: fs) l l'
  | global {t : ℕ} {v : Word} {fs : List Function} {l l₁ l₂ l' : Lexer}
      (htk : ¬(l.tk = Tok.semi ∨ l.tk = Tok.rbrace)) (hname : NewName b t l l₁)
      (hparen : l₁.tk ≠ Tok.lparen) (hcomma : Comma (l₁.typed t).allocate l₂)
      (hrest : Declarators b v fs l₂ l') : Declarators b v fs l l'

/-- The declarations up to the end of the source; the code of the functions `fs` begins at `v`. -/
inductive Source : Word → List Function → Lexer → Lexer → Prop where
  | nil {v : Word} {l : Lexer} (htk : l.tk = 0) : Source v [] l l
  | cons {b : ℕ} {v : Word} {fs gs : List Function} {l l₁ l₂ l₃ l' : Lexer} (htk : l.tk ≠ 0)
      (hbase : BaseType b l l₁) (hdecl : Declarators b v fs l₁ l₂) (hnext : l₂.next = .ok l₃)
      (hrest : Source ((codeAll fs).stop 4 v) gs l₃ l') : Source v (fs ++ gs) l l'

/-! ## What is left of the source -/

variable {b t : ℕ} {i v : Word} {l l' : Lexer} {f : Function} {fs : List Function}

theorem EnumValue.left (h : EnumValue i v l l') : l'.left ≤ l.left := by
  cases h with
  | next _ => exact le_rfl
  | given _ hnext _ hnext' => exact ((follows_next hnext).within.trans (follows_next hnext').within).left

theorem EnumList.left (h : EnumList i l l') : l'.left ≤ l.left := by
  induction h with
  | nil _ => exact le_rfl
  | cons _ hnext hvalue hcomma _ ih =>
      exact ih.trans (hcomma.within.left.trans (hvalue.left.trans (follows_next hnext).within.left))

theorem EnumName.left (h : EnumName l l') : l'.left ≤ l.left := by
  cases h with
  | name _ hnext => exact (follows_next hnext).within.left
  | none _ => exact le_rfl

theorem BaseType.left (h : BaseType b l l') : l'.left ≤ l.left := by
  cases h with
  | int _ hnext => exact (follows_next hnext).within.left
  | char _ hnext => exact (follows_next hnext).within.left
  | enum _ hnext hname _ hnext₂ hlist hnext₄ =>
      have hhead := hname.left.trans (follows_next hnext).within.left
      have hmembers := hlist.left.trans (follows_next hnext₂).within.left
      exact (follows_next hnext₄).within.left.trans (hmembers.trans hhead)
  | enumType _ hnext hname _ => exact hname.left.trans (follows_next hnext).within.left
  | none _ _ _ => exact le_rfl

theorem NewName.left (h : NewName b t l l') : l'.left < l.left := by
  cases h with
  | name hstars htk _ hnext =>
      exact ((follows_next hnext).before (by rw [htk]; decide)).left.trans_le hstars.left

theorem Defines.left (h : Defines f v l l') : l'.left ≤ l.left := by
  cases h with
  | intro _ hnext hparams hnext₂ _ hnext₃ hlocals _ _ hbody _ =>
      have hhead := ((follows_next hnext).within.trans hparams.within).trans (follows_next hnext₂).within
      have htail := ((follows_next hnext₃).within.trans hlocals.within).trans hbody.within
      exact (hhead.trans htail).left

theorem Declarators.left (h : Declarators b v fs l l') : l'.left ≤ l.left := by
  induction h with
  | nil _ => exact le_rfl
  | function _ hname hdef hcomma _ ih =>
      exact ih.trans (hcomma.within.left.trans (hdef.left.trans hname.left.le))
  | global _ hname _ hcomma _ ih => exact ih.trans (hcomma.within.left.trans hname.left.le)

theorem Defines.tk (h : Defines f v l l') : l.tk = Tok.lparen := by
  cases h with
  | intro htk _ _ _ _ _ _ _ _ _ _ => exact htk

theorem Declarators.tk (h : Declarators b v fs l l') : l'.tk = Tok.semi ∨ l'.tk = Tok.rbrace := by
  induction h with
  | nil htk => exact htk
  | function _ _ _ _ _ ih => exact ih
  | global _ _ _ _ _ ih => exact ih

theorem Declarators.tk_ne_zero (h : Declarators b v fs l l') : l'.tk ≠ 0 := by
  obtain htk | htk := h.tk
  · rw [htk]
    decide
  · rw [htk]
    decide

end Lexer

/-! ## What the compiler does -/

section Rules

variable {b t left fuel : ℕ} {c : Compiler} {l l' : Lexer} {p : Piece} {f : Function}
  {fs : List Function} {i v : Word}

@[simp] theorem run_typed : setId (fun d => { d with type := t }) (c.out l p b) =
    .ok ((), c.out (l.typed t) p b) := rfl

@[simp] theorem run_constant :
    setId (fun d => { d with cls := .num, type := Ty.int, val := v }) (c.out l p t) =
      .ok ((), c.out (l.constant v) p t) := rfl

theorem run_global : global (c.out l p t) = .ok ((), c.out l.allocate p t) := rfl

theorem run_enumList (h : EnumList i l l') (hleft : l.left < left) :
    enumList left i (c.out l p t) = .ok ((), c.out l' p t) := by
  induction h generalizing left with
  | nil htk =>
      cases left with
      | zero => omega
      | succ left => simp [enumList, htk]
  | cons htk hnext hvalue hcomma hrest ih =>
      cases left with
      | zero => omega
      | succ left =>
          have hbefore := ((follows_next hnext).before (by rw [htk]; decide)).left
          have hle := hvalue.left
          have hle' := hcomma.within.left
          change _ ≤ Lexer.left _ at hle'
          have hrun := ih (hle'.trans_lt (hle.trans_lt (by omega : _ < left)))
          cases hvalue with
          | next hassign =>
              simp [enumList, htk, run_next hnext, hassign, run_skip hcomma]
              exact hrun
          | given hassign hnext₁ hnum hnext₂ =>
              simp [enumList, htk, run_next hnext, hassign, run_next hnext₁, hnum, run_next hnext₂,
                run_skip hcomma]
              exact hrun

theorem run_baseType (h : BaseType b l l') (hfuel : l.left < fuel) :
    baseType fuel (c.out l p t) = .ok (b, c.out l' p t) := by
  cases h with
  | int htk hnext =>
      simp only [baseType, run_bind, run_tk, bind_ok, run_ite, if_pos htk, run_next hnext, run_pure]
  | char htk hnext =>
      have hint : l.tk ≠ Tok.int := by
        rw [htk]
        decide
      simp only [baseType, run_bind, run_tk, bind_ok, run_ite, if_neg hint, if_pos htk, run_next hnext,
        run_pure]
  | enum htk hnext hname hbrace hnext₂ hlist hnext₄ =>
      have hle := (follows_next hnext).within.left
      have hle₁ := hname.left
      have hle₂ := (follows_next hnext₂).within.left
      have hrun := run_enumList (c := c) (p := p) (t := t) hlist (by omega : _ < fuel)
      have hint : l.tk ≠ Tok.int := by
        rw [htk]
        decide
      have hchar : l.tk ≠ Tok.char := by
        rw [htk]
        decide
      cases hname with
      | name hne hnext₁ =>
          simp only [baseType, run_bind, run_tk, bind_ok, run_ite, if_neg hint, if_neg hchar, if_pos htk,
            run_next hnext, if_pos hne, run_next hnext₁, if_pos hbrace, run_next hnext₂, hrun,
            run_next hnext₄, run_pure]
      | none _ =>
          simp only [baseType, run_bind, run_tk, bind_ok, run_ite, if_neg hint, if_neg hchar, if_pos htk,
            run_next hnext, if_neg (not_not.mpr hbrace), if_pos hbrace, run_next hnext₂, hrun,
            run_next hnext₄, run_pure]
  | enumType htk hnext hname hbrace =>
      cases hname with
      | name hne hnext₁ => simp [baseType, htk, run_next hnext, hne, run_next hnext₁, hbrace]
      | none heq => exact absurd heq hbrace
  | none hint hchar henum => simp [baseType, hint, hchar, henum]

/-- The steps up to a new name. -/
theorem Lexer.NewName.run {k : ℕ} (h : NewName b t l l') (hfuel : l.left < fuel) : ∃ l₁,
    stars fuel b (c.out l p k) = .ok (t, c.out l₁ p k) ∧ l₁.tk = Tok.id ∧
      (l₁.sym[l₁.id]?.getD default).cls = .none ∧ l₁.next = .ok l' := by
  cases h with
  | name hstars htk hnew hnext =>
      exact ⟨_, run_stars hstars (by rw [htk]; decide) hfuel, htk, hnew, hnext⟩

/-- The names in a declaration put out the code of the functions among them. -/
theorem run_declarators (h : Declarators b v fs l l') (hv : v = c.here) (hleft : l.left < left)
    (hfuel : l.left + 1 < fuel) : ∃ c' : Compiler,
      declarators fuel left b (c.out l .nil t) = .ok ((), c') ∧ c'.lex = l' ∧ c'.text = c.text ∧
        c'.code = c.code ++ codeAll fs c.here := by
  induction h generalizing c left t with
  | nil htk =>
      cases left with
      | zero => omega
      | succ left =>
          refine ⟨c.out _ .nil t, ?_, rfl, rfl, rfl⟩
          simp only [declarators, run_bind, run_tk, bind_ok, run_ite, if_pos htk, run_pure]
  | function htk hname hdef hcomma hrest ih =>
      rename_i k w f gs l₀ l₁ l₂ l₃ l₄
      cases left with
      | zero => omega
      | succ left =>
          have hlt := hname.left
          have hle := hdef.left
          have hle' := hcomma.within.left
          change _ ≤ l₁.left at hle
          obtain ⟨t', hfunction⟩ := function_parses (t := t) (hv ▸ hdef) (by
            change l₁.left + 1 < fuel
            omega)
          -- The compiler behind the function.
          let c₁ : Compiler := { c with loc := f.loc, code := c.code ++ f.code c.here }
          have hc₁ : Compiler.out { c with loc := f.loc } l₂ f.code t' = c₁.out l₂ .nil t' :=
            congrArg (fun code => { c with lex := l₂, loc := f.loc, code := code, ty := t' })
              (List.append_nil _).symm
          have hhere : c₁.here = f.code.stop 4 c.here := out_here (l := l₂) (t := t')
          obtain ⟨c', hrun, hlex, htext, hcode⟩ := ih (c := c₁) (t := t') (by rw [hhere, hv])
            (by omega : _ < left) (by omega)
          obtain ⟨l₅, hstars, hid, hnew, hnext⟩ := hname.run (c := c) (p := .nil) (k := t)
            (by omega : _ < fuel)
          refine ⟨c', ?_, hlex, htext, ?_⟩
          · have hparen : (l₁.typed k).tk = Tok.lparen := hdef.tk
            rw [hc₁] at hfunction
            simp [declarators, if_neg htk, hstars, hid, hnew, run_next hnext, hparen, hfunction,
              run_skip hcomma, hrun]
          · rw [hcode, hhere, codeAll, append_apply]
            exact List.append_assoc _ _ _
  | global htk hname hparen hcomma hrest ih =>
      rename_i k w gs l₀ l₁ l₂ l₃
      cases left with
      | zero => omega
      | succ left =>
          have hlt := hname.left
          have hle := hcomma.within.left
          change _ ≤ l₁.left at hle
          obtain ⟨c', hrun, hlex, htext, hcode⟩ := ih (c := c) (t := t) hv (by omega : _ < left) (by omega)
          obtain ⟨l₅, hstars, hid, hnew, hnext⟩ := hname.run (c := c) (p := .nil) (k := t)
            (by omega : _ < fuel)
          refine ⟨c', ?_, hlex, htext, hcode⟩
          have hparen' : (l₁.typed k).tk ≠ Tok.lparen := hparen
          simp [declarators, if_neg htk, hstars, hid, hnew, run_next hnext, hparen', run_global,
            run_skip hcomma, hrun]

/-- The declarations of a source put out the code of its functions. -/
theorem run_program (h : Source v fs l l') (hv : v = c.here) (hleft : l.left < left)
    (hfuel : l.left + 1 < fuel) : ∃ c' : Compiler,
      program fuel left (c.out l .nil t) = .ok ((), c') ∧ c'.lex = l' ∧
        c'.code = c.code ++ codeAll fs c.here := by
  induction h generalizing c left t with
  | nil htk =>
      cases left with
      | zero => omega
      | succ left =>
          refine ⟨c.out _ .nil t, ?_, rfl, rfl⟩
          simp only [program, run_bind, run_tk, bind_ok, run_ite, if_pos htk, run_pure]
  | cons htk hbase hdecl hnext hrest ih =>
      rename_i k w gs hs l₀ l₁ l₂ l₃ l₄
      cases left with
      | zero => omega
      | succ left =>
          have hle := hbase.left
          have hle' := hdecl.left
          have hlt := ((follows_next hnext).before hdecl.tk_ne_zero).left
          have hfuel' : l₁.left + 1 < fuel := by omega
          obtain ⟨c₁, hdecls, hlex₁, htext₁, hcode₁⟩ := run_declarators (t := t) hdecl hv
            (by omega : l₁.left < fuel) hfuel'
          have hc₁ : c₁ = c₁.out l₂ .nil c₁.ty := by
            rw [← hlex₁, out_nil]
          have hhere : c₁.here = (codeAll gs).stop 4 c.here := by
            unfold Compiler.here
            rw [htext₁, hcode₁]
            exact out_here (l := l₂) (t := t)
          obtain ⟨c', hrun, hlex, hcode⟩ := ih (c := c₁) (t := c₁.ty) (by rw [hhere, hv])
            (by omega : _ < left) (by omega)
          refine ⟨c', ?_, hlex, ?_⟩
          · rw [hc₁] at hdecls
            simp only [program, run_bind, run_tk, bind_ok, run_ite, if_neg htk,
              run_baseType hbase (by omega : _ < fuel), hdecls, run_next hnext, hrun]
          · rw [hcode, hcode₁, hhere, codeAll_append, append_apply]
            exact List.append_assoc _ _ _

/-- A source becomes the code of its functions. -/
theorem program_compiles (h : Source c.here fs c.lex l') (hfuel : c.lex.left + 1 < fuel) :
    ∃ c', program fuel fuel c = .ok ((), c') ∧ c'.lex = l' ∧
      c'.code = c.code ++ codeAll fs c.here := by
  have hrun := run_program (t := c.ty) h rfl (by omega : _ < fuel) hfuel
  rwa [out_nil] at hrun

/-- A source becomes the code of its functions, and this code, where it is loaded, runs as the
functions say. -/
theorem program_runs (h : Source c.here fs c.lex l') (hfuel : c.lex.left + 1 < fuel) :
    ∃ c', program fuel fuel c = .ok ((), c') ∧ c'.lex = l' ∧
      c'.code = c.code ++ codeAll fs c.here ∧
      ∀ (P : Program) (text : Word → Word → Prop) (M M₂ : Store) (m : Bytes) (f : Function)
        (top argc argv v a r : Word) (out : Ending),
        Placed 4 text c.here (codeAll fs c.here) →
        (∀ u g, P.functions u = some g → (u, g) ∈ layout c.here fs) →
        Agrees text M m → (∀ x ∈ M.own, x < P.low ∨ top.toNat ≤ x) →
        (∀ p v, text p v → ∀ i < 4,
          p.toNat + i ∉ M.own ∧ (p.toNat + i < P.low ∨ top.toNat ≤ p.toNat + i)) →
        P.functions v = some f → f.params ≤ 2 → P.low + 24 + 4 * f.locals ≤ top.toNat →
        out = .done ∨ out = .returned →
        Runs P ⟨f.scope, f.loc, top - 24⟩ (top - 24 - 4 * BitVec.ofNat 32 f.locals) (.block f.body)
          (M.enter (top - 4 * BitVec.ofNat 32 (4 - f.params)) (mainArgs argc argv f.params) f.locals) a
          out M₂ r →
        ∃ v', Steps (startVm m top argc argv v a) v' ∧ v'.step = .exit r ∧
          ∀ x ∈ M₂.init ∩ M.own, v'.mem x = M₂.bytes x := by
  obtain ⟨c', hrun, hlex, hcode⟩ := program_compiles h hfuel
  refine ⟨c', hrun, hlex, hcode, fun P text M M₂ m f top argc argv v a r out hplaced hlayout hagree
    hapart htext hmain hparams hroom hout hbody => ?_⟩
  have hfunctions : ∀ u g, P.functions u = some g → Placed 4 text u (g.code u) := fun u g hg =>
    placed_layout hplaced (hlayout u g hg)
  exact runs_program ⟨hagree, hapart, htext, hfunctions⟩ hmain hparams hroom hout hbody

end Rules

/-! The source `enum {n=3}main(c,v){int b;b=c;return b+n;}`, whose first token has been read. -/

/-- The compiler in front of the declarations. -/
def enumSource : Compiler where
  lex :=
    { p := [123, 110, 61, 51, 125, 109, 97, 105, 110, 40] ++ plusThreeSource, line := 1, sym := keywordSym,
      data := 0, mem := fun _ => 0, tk := Tok.enum, ival := 0, id := 0 }
  text := 4096
  code := []
  ty := 0
  loc := 0

/-- Its only function. -/
def plusThreeProgram : Program := ⟨fun v => if v = 4100 then some plusThreeFunction else none, 65536⟩

/-- Its cells. -/
def plusThreeCells : List Word := codeAll [plusThreeFunction] 4100

/-- Where they lie. -/
def plusThreeText : Word → Word → Prop := Listed 4 4100 plusThreeCells

/-- The memory of the machine. -/
def plusThreeMemory : Bytes := putCells (fun _ => 0) 4100 plusThreeCells

/-- The program owns nothing outside its functions. -/
def ownsNothing : Store := ⟨fun _ => 0, ∅, ∅⟩

theorem source_enumSource :
    Source 4100 [plusThreeFunction] enumSource.lex { plusThreeEnd with tk := 0 } := by
  have hbase : BaseType Ty.int enumSource.lex
      { plusThree.lex with
        p := 40 :: plusThreeSource
        sym := keywordSym ++ plusThreeSym.drop 4
        tk := Tok.id } :=
    .enum rfl rfl (.none rfl) rfl rfl
      (.cons rfl rfl (.given rfl rfl rfl rfl) (.none (by decide)) (.nil rfl)) rfl
  have hname : NewName Ty.int Ty.int
      { plusThree.lex with
        p := 40 :: plusThreeSource
        sym := keywordSym ++ plusThreeSym.drop 4
        tk := Tok.id }
      { plusThree.lex with sym := keywordSym ++ plusThreeSym.drop 4 } := .name (n := 0) rfl rfl rfl rfl
  have hdecl := Declarators.function (by decide) hname defines_plusThree (.none (by decide))
    (.nil (Or.inr rfl))
  have hall := Source.cons (by decide) hbase hdecl rfl (.nil rfl)
  exact hall

theorem runs_plusThree : Runs plusThreeProgram ⟨plusThreeFunction.scope, 3, 131048⟩ 131044
    (.block plusThreeFunction.body) (ownsNothing.enter 131064 [5, 70000] 1) 0 .returned
    ((ownsNothing.enter 131064 [5, 70000] 1).write Ty.int 131044 5) 8 := by
  have hc : Runs plusThreeProgram ⟨plusThreeFunction.scope, 3, 131048⟩ 131040 (.expr (.name 5))
      (ownsNothing.enter 131064 [5, 70000] 1) 131044 .done (ownsNothing.enter 131064 [5, 70000] 1)
      (loadAs Ty.int (ownsNothing.enter 131064 [5, 70000] 1).bytes 131060) :=
    .load (show Class.loc ≠ Class.num by decide) (.local rfl) fun x hx =>
      Or.inr ⟨le_trans (by decide) hx.1, lt_of_lt_of_le hx.2 (by decide)⟩
  have hargc : loadAs Ty.int (ownsNothing.enter 131064 [5, 70000] 1).bytes 131060 = 5 := by decide
  rw [hargc] at hc
  have hb : Runs plusThreeProgram ⟨plusThreeFunction.scope, 3, 131048⟩ 131044 (.expr (.name 7))
      ((ownsNothing.enter 131064 [5, 70000] 1).write Ty.int 131044 5) 5 .done
      ((ownsNothing.enter 131064 [5, 70000] 1).write Ty.int 131044 5)
      (loadAs Ty.int ((ownsNothing.enter 131064 [5, 70000] 1).write Ty.int 131044 5).bytes 131044) :=
    .load (show Class.loc ≠ Class.num by decide) (.local rfl) Set.subset_union_right
  have hfive : loadAs Ty.int ((ownsNothing.enter 131064 [5, 70000] 1).write Ty.int 131044 5).bytes 131044 = 5 :=
    loadInt_storeInt
  rw [hfive] at hb
  refine .blockCons (.exprStmt (.assign rfl (.local rfl) (by decide) hc Set.subset_union_right))
    (.blockReturn (.returnVal (.add hb (by decide) (.const rfl))))

theorem program_runs_enumSource : ∃ c' v', program 60 60 enumSource = .ok ((), c') ∧ c'.lex.p = [] ∧
    c'.code = plusThreeCells ∧
      Steps (startVm plusThreeMemory 131072 5 70000 4100 0) v' ∧ v'.step = .exit 8 := by
  obtain ⟨c', hrun, hlex, hcode, hexit⟩ := program_runs (c := enumSource) source_enumSource
    (by decide : enumSource.lex.left + 1 < 60)
  have hfunctions : ∀ u g, plusThreeProgram.functions u = some g →
      (u, g) ∈ layout 4100 [plusThreeFunction] := by
    intro u g hg
    change (if u = 4100 then some plusThreeFunction else none) = some g at hg
    split at hg
    next hu =>
      cases hg
      rw [hu]
      exact List.mem_singleton_self _
    next => cases hg
  have hagree : Agrees plusThreeText ownsNothing plusThreeMemory :=
    ⟨fun _ _ hp => loadInt_putCells hp (by decide), fun _ hx => hx.elim, fun _ hx => hx.elim⟩
  have htext : ∀ p v, plusThreeText p v → ∀ i < 4,
      p.toNat + i ∉ ownsNothing.own ∧ (p.toNat + i < 65536 ∨ (131072 : Word).toNat ≤ p.toNat + i) := by
    intro p v hp i hi
    have hend := (listed_byte hp (by decide)).2
    exact ⟨fun hx => hx.elim, Or.inl (lt_of_lt_of_le (by omega) (hend.trans (by decide)))⟩
  obtain ⟨v', hsteps, hstep, -⟩ := hexit plusThreeProgram plusThreeText ownsNothing _ plusThreeMemory
    plusThreeFunction 131072 5 70000 4100 0 8 .returned placed_listed hfunctions hagree
    (fun _ hx => hx.elim) htext rfl le_rfl (by decide) (Or.inr rfl) runs_plusThree
  exact ⟨c', v', hrun, by rw [hlex]; rfl, hcode, hsteps, hstep⟩

end BochsOs.C4
