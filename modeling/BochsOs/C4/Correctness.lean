import BochsOs.C4.CodegenRuns
import BochsOs.C4.ParseStmt

/-!
# From the source to the run

`stmt_runs` puts the two halves together: when `stmt` comes to the tokens of a well-formed
statement, it reads them and puts out its code, and the machine does with this code what the
statement means, in any memory that agrees with that of the program.
-/

open BochsOs.C4.Comp BochsOs.C4.Lexer Relocation BochsOs.C4.Vm

namespace BochsOs.C4

section Statements

variable {F : Activation} {s : Stmt} {fuel : ℕ} {c : Compiler} {l' : Lexer}

/-- `stmt` puts out the code of a statement, and this code does what the statement means. -/
theorem stmt_runs (hwf : s.WellFormed F.scope) (hscope : c.lex.scope = F.scope) (hloc : c.loc = F.loc)
    (hreads : Reads s.tokens c.lex l') (hfuel : c.lex.left + 1 < fuel)
    (helse : s.opens = true → l'.tk ≠ Tok.else) :
    ∃ c', stmt fuel c = .ok ((), c') ∧ c'.lex = l' ∧ c'.code = c.code ++ s.code F.scope F.loc c.here ∧
      ∀ (P : Program) (text : Word → Word → Prop) (sp a b : Word) (M M' : Store) (out : Ending),
        (∀ v f, P.functions v = some f → Placed 4 text v (f.code v)) →
        Placed 4 text c.here (s.code F.scope F.loc c.here) → Runs P F sp (.stmt s) M a out M' b →
        ∀ w, Fits P text F M.own sp → Agrees text M w →
          ∃ w', Steps ⟨c.here, sp, F.bp, a, w⟩ (out.machine F sp c'.here b w w') ∧
            Agrees text M' w' ∧ Kept P M.own sp w w' := by
  obtain ⟨t', hstmt⟩ := Stmt.parses hwf fuel c.ty c c.lex l' .nil hscope hreads hfuel helse
  rw [out_nil, nil_append, hloc] at hstmt
  refine ⟨_, hstmt, rfl, rfl, fun P text sp a b M M' out hcode hplaced hruns w hfits hagree => ?_⟩
  obtain ⟨w', hsteps, hagree', hkept, -⟩ := (hruns.does hcode).run c.here w hplaced hfits hagree
  refine ⟨w', ?_, hagree', hkept⟩
  rw [out_here]
  exact hsteps

end Statements

/-! The statement `x = x + 1;`, where `x` is a local variable with the value 41. -/

/-- The compiler at the first token. -/
def countUp : Compiler where
  lex :=
    { p := [61, 120, 43, 49, 59], line := 1,
      sym := [{ tk := Tok.id, hash := identHash 120 [], name := [120], cls := .loc, type := Ty.int, val := 2 }],
      data := 0, mem := fun _ => 0, tk := Tok.id, ival := 0, id := 0 }
  text := 4096
  code := []
  ty := 0
  loc := 1

/-- The statement. -/
def countUpStmt : Stmt := .expr (.assign (.name 0) (.add (.name 0) (.num 1)))

/-- The function around it. -/
def countUpFrame : Activation := ⟨countUp.lex.scope, 1, 65536⟩

/-- No function can be called, and the stack lies above the code. -/
def uncalled : Program := ⟨fun _ => none, 8192⟩

/-- The memory of the function with the value `v` in `x`. -/
def countUpStore (v : Word) : Store where
  bytes := storeInt (fun _ => 0) 65532 v
  own := between 65532 65536
  init := between 65532 65536

/-- What `stmt` makes of it. -/
def countUpCells : List Word := countUpStmt.code countUpFrame.scope 1 4100

/-- Where the cells lie. -/
def countUpText : Word → Word → Prop := Listed 4 4100 countUpCells

/-- The memory of the machine. -/
def countUpMemory : ByteMemory.Bytes := putCells (countUpStore 41).bytes 4100 countUpCells

theorem reads_countUp :
    Reads countUpStmt.tokens countUp.lex { countUp.lex with p := [], tk := 0, ival := 1 } :=
  ⟨_, .name rfl rfl rfl, _, .sym (by decide) rfl rfl, _, .name rfl rfl rfl, _, .sym (by decide) rfl rfl,
    _, .num rfl rfl rfl, _, .sym (by decide) rfl rfl, rfl⟩

theorem wellFormed_countUp : countUpStmt.WellFormed countUpFrame.scope := by
  have hx : (Expr.name 0).WellFormed countUpFrame.scope := Or.inr (Or.inl rfl)
  exact ⟨⟨⟨by decide, by decide⟩, rfl⟩, hx, ⟨by decide, by decide⟩, hx, trivial⟩

theorem agrees_countUp : Agrees countUpText (countUpStore 41) countUpMemory where
  text _ _ hp := loadInt_putCells hp (by decide)
  bytes _ hx := putCells_outside (by decide) (Or.inr (le_trans (by decide) hx.1))
  initOwn := subset_rfl

theorem fits_countUp : Fits uncalled countUpText countUpFrame (countUpStore 41).own 65532 where
  low := by decide
  apart _ hx := Or.inr hx.1
  code p v hp i hi := by
    have hend := (listed_byte hp (by decide)).2
    have hlow : p.toNat + i < 8192 := lt_of_lt_of_le (by omega) (hend.trans (by decide))
    exact ⟨fun hx => absurd (hx.1.trans_lt hlow) (by decide), Or.inl hlow⟩
  frame := by decide
  top := by decide
  saved _ hle _ hx := absurd hx.2 (not_lt.mpr hle)

theorem runs_countUp : Runs uncalled countUpFrame 65532 (.stmt countUpStmt) (countUpStore 41) 0 .done
    ((countUpStore 41).write Ty.int 65532 42) 42 := by
  have hx : Runs uncalled countUpFrame 65528 (.expr (.name 0)) (countUpStore 41) 65532 .done
      (countUpStore 41) (loadAs Ty.int (countUpStore 41).bytes 65532) :=
    .load (show Class.loc ≠ Class.num by decide) (.local rfl) subset_rfl
  have hvalue : loadAs Ty.int (countUpStore 41).bytes 65532 = 41 := loadInt_storeInt
  rw [hvalue] at hx
  exact .exprStmt (.assign rfl (.local rfl) (by decide) (.add hx (by decide) .num) subset_rfl)

theorem stmt_runs_countUp : ∃ c' w', stmt 9 countUp = .ok ((), c') ∧ c'.lex.p = [] ∧
    c'.code = countUpCells ∧
      Steps ⟨4100, 65532, 65536, 0, countUpMemory⟩ ⟨c'.here, 65532, 65536, 42, w'⟩ ∧
      loadInt w' 65532 = 42 ∧ Kept uncalled (countUpStore 41).own 65532 countUpMemory w' := by
  obtain ⟨c', hstmt, hlex, hcode, hrun⟩ := stmt_runs (F := countUpFrame) (s := countUpStmt)
    wellFormed_countUp rfl rfl reads_countUp (by decide : countUp.lex.left + 1 < 9) (fun h => by cases h)
  obtain ⟨w', hsteps, hagree, hkept⟩ := hrun uncalled countUpText 65532 0 42 _ _ .done
    (fun v f hf => by cases hf) placed_listed runs_countUp countUpMemory fits_countUp agrees_countUp
  refine ⟨c', w', hstmt, by rw [hlex], hcode, hsteps, ?_, hkept⟩
  have hbytes : loadInt w' 65532 = loadInt ((countUpStore 41).write Ty.int 65532 42).bytes 65532 :=
    loadInt_congr fun i hi => hagree.bytes _ (Or.inl ⟨Nat.le_add_right _ _, by
      change 65532 + i < 65536
      omega⟩)
  exact hbytes.trans loadInt_storeInt

end BochsOs.C4
