import BochsOs.C4.Tokens
import BochsOs.C4.Pieces

/-!
# What the parts of the compiler do

`Compiler.out` is the compiler after it has put out a piece of code.  The lemmas say what the parts
of `Comp` do to it, so that a run of the compiler is computed with `simp`.
-/

namespace BochsOs.C4

open Relocation

/-- The compiler at another place in the source, after the piece `p` and with the type `t`. -/
def Compiler.out (c : Compiler) (l : Lexer) (p : Piece) (t : ℕ) : Compiler :=
  { c with lex := l, code := c.code ++ p c.here, ty := t }

variable {c : Compiler} {l l' : Lexer} {p q : Piece} {t : ℕ} {w v : Word} {o : Op}

/-! ## Pieces -/

@[simp] theorem append_nil (p : Piece) : p ++ Piece.nil = p := funext fun x => List.append_nil (p x)

theorem nil_append (p : Piece) : Piece.nil ++ p = p := by
  funext x
  change [] ++ p (Code.stop 4 Piece.nil x) = p x
  rw [stop_nil, List.nil_append]

theorem append_apply (x : Word) : (p ++ q) x = p x ++ q (p.stop 4 x) := rfl

/-- An instruction and its operand. -/
@[simp] theorem op_cells : Piece.op o ++ Code.cells [w] = Piece.opWith o w := rfl

@[simp] theorem append_op_cells : p ++ .op o ++ Code.cells [w] = p ++ .opWith o w := by
  rw [append_assoc, op_cells]

theorem stop_cell (x : Word) : Code.stop 4 (Code.cells [w]) x = x + 4 := by
  change x + 1 • (4 : Word) = _
  rw [one_nsmul]

/-! ## The state -/

theorem out_nil (c : Compiler) : c.out c.lex .nil c.ty = c := by
  unfold Compiler.out
  exact congrArg (fun code => { c with code := code }) (List.append_nil c.code)

/-- Only the code at the end of the compiled code matters. -/
theorem out_congr (h : p c.here = q c.here) : c.out l p t = c.out l q t := by
  unfold Compiler.out
  rw [h]

@[simp] theorem out_lex : (c.out l p t).lex = l := rfl

@[simp] theorem out_ty : (c.out l p t).ty = t := rfl

@[simp] theorem out_loc : (c.out l p t).loc = c.loc := rfl

@[simp] theorem out_here : (c.out l p t).here = p.stop 4 c.here := by
  change c.text + ((c.code ++ p c.here).length + 1) • (4 : Word) =
    c.text + (c.code.length + 1) • 4 + (p c.here).length • 4
  rw [List.length_append, add_assoc c.text, ← add_nsmul]
  congr 2
  omega

@[simp] theorem out_out {t' : ℕ} : (c.out l p t).out l' q t' = c.out l' (p ++ q) t' := by
  unfold Compiler.out
  rw [append_apply, ← List.append_assoc]
  exact congrArg (fun x => { c with lex := l', code := c.code ++ p c.here ++ q x, ty := t' }) out_here

/-! ## Jumps -/

/-- A jump over `q` whose operand is filled in later. -/
theorem out_optional : c.out l (p ++ Piece.op o ++
      Code.cells [(p ++ Piece.op o ++ Code.cells [0] ++ q).stop 4 c.here] ++ q) t =
    c.out l (p ++ Piece.optional o q) t := by
  refine out_congr ?_
  simp only [append_apply, stop_append, stop_op, stop_cell, List.append_assoc]
  simp only [Piece.optional, Code.branch, behind]
  rfl

/-- Two pieces, of which one is skipped; `v` and `w` are filled in later. -/
theorem out_either {q' : Piece} (hv : v = (p ++ Piece.op .bz ++ Code.cells [0] ++ q).stop 4 c.here + 8)
    (hw : w = (p ++ Piece.op .bz ++ Code.cells [v] ++ q ++ Piece.op .jmp ++ Code.cells [0] ++ q').stop 4 c.here) :
    c.out l (p ++ Piece.op .bz ++ Code.cells [v] ++ q ++ Piece.op .jmp ++ Code.cells [w] ++ q') t =
      c.out l (p ++ .either q q') t := by
  have height : ∀ x : Word, x + 8 = x + 4 + 4 := fun x => (add_assoc x 4 4).symm
  refine out_congr ?_
  rw [hw, hv]
  simp only [append_apply, stop_append, stop_op, stop_cell, List.append_assoc]
  simp only [Piece.either, Code.either, behind, height]
  rfl

/-- A loop; `v` is filled in later. -/
theorem out_loop {q' : Piece}
    (hv : v = (p ++ q ++ Piece.op .bz ++ Code.cells [0] ++ q' ++ Piece.op .jmp ++
      Code.cells [p.stop 4 c.here]).stop 4 c.here) :
    c.out l (p ++ q ++ Piece.op .bz ++ Code.cells [v] ++ q' ++ Piece.op .jmp ++
      Code.cells [p.stop 4 c.here]) t = c.out l (p ++ .loop q q') t := by
  refine out_congr ?_
  rw [hv]
  simp only [append_apply, stop_append, stop_op, stop_cell, List.append_assoc]
  simp only [Piece.loop, Code.loop, behind, List.append_assoc]
  rfl

/-! ## The parts -/

namespace Comp

variable {α β : Type}

@[simp] theorem run_bind (x : Comp α) (f : α → Comp β) (c : Compiler) :
    (x >>= f) c = (x c).bind fun r => f r.1 r.2 := rfl

@[simp] theorem bind_ok {ε : Type} (a : α) (f : α → Except ε β) : (Except.ok a).bind f = f a := rfl

@[simp] theorem run_pure (a : α) : (pure a : Comp α) c = .ok (a, c) := rfl

@[simp] theorem run_ite {C : Prop} [Decidable C] (x y : Comp α) :
    (if C then x else y) c = if C then x c else y c := by
  split
  · rfl
  · rfl

theorem run_next (h : l.next = .ok l') : next (c.out l p t) = .ok ((), c.out l' p t) := by
  unfold next
  rw [out_lex, h]
  rfl

@[simp] theorem run_tk : tk (c.out l p t) = .ok (l.tk, c.out l p t) := rfl

@[simp] theorem run_ival : ival (c.out l p t) = .ok (l.ival, c.out l p t) := rfl

@[simp] theorem run_id : id (c.out l p t) = .ok (l.id, c.out l p t) := rfl

@[simp] theorem run_entry {d : ℕ} : entry d (c.out l p t) = .ok (l.sym.getD d default, c.out l p t) := rfl

@[simp] theorem run_ty : ty (c.out l p t) = .ok (t, c.out l p t) := rfl

@[simp] theorem run_setTy {u : ℕ} : setTy u (c.out l p t) = .ok ((), c.out l p u) := rfl

@[simp] theorem run_loc : loc (c.out l p t) = .ok (c.loc, c.out l p t) := rfl

@[simp] theorem run_data : data (c.out l p t) = .ok (l.data, c.out l p t) := rfl

@[simp] theorem run_setData : setData v (c.out l p t) = .ok ((), c.out { l with data := v } p t) := rfl

@[simp] theorem run_here : here (c.out l p t) = .ok (p.stop 4 c.here, c.out l p t) := by
  unfold here
  rw [out_here]

@[simp] theorem run_emit : emit w (c.out l p t) = .ok ((), c.out l (p ++ Code.cells [w]) t) := by
  change Except.ok ((), { c with lex := l, code := c.code ++ p c.here ++ [w], ty := t }) = _
  rw [List.append_assoc]
  rfl

@[simp] theorem run_emitOp : emitOp o (c.out l p t) = .ok ((), c.out l (p ++ .op o) t) := run_emit

@[simp] theorem run_last : last (c.out l (p ++ .op o) t) = .ok (o.code, c.out l (p ++ .op o) t) := by
  have hcode : (c.out l (p ++ .op o) t).code = c.code ++ p c.here ++ [o.code] := by
    rw [List.append_assoc]
    rfl
  unfold last
  rw [hcode, List.getLastD_concat]

@[simp] theorem run_drop : drop (c.out l (p ++ .op o) t) = .ok ((), c.out l p t) := by
  change Except.ok ((), { c with
    lex := l, code := (c.code ++ (p c.here ++ [o.code])).dropLast, ty := t }) = _
  rw [← List.append_assoc, List.dropLast_concat]
  rfl

@[simp] theorem run_hole : hole (c.out l p t) =
    .ok (c.code.length + (p c.here).length, c.out l (p ++ Code.cells [0]) t) := by
  rw [← List.length_append]
  exact congrArg (fun r : Except Failure (Unit × Compiler) =>
    r.bind fun r => .ok ((c.code ++ p c.here).length, r.2)) run_emit

/-- A hole is filled. -/
@[simp] theorem run_fill : fill (c.code.length + (p c.here).length) v
    (c.out l (p ++ Code.cells [0] ++ q) t) = .ok ((), c.out l (p ++ Code.cells [v] ++ q) t) := by
  have hcode : ∀ u : Word, (c.out l (p ++ Code.cells [u] ++ q) t).code =
      (c.code ++ p c.here) ++ u :: q (p.stop 4 c.here + 4) := by
    intro u
    change c.code ++ (p c.here ++ [u] ++ q ((p ++ Code.cells [u]).stop 4 c.here)) = _
    rw [stop_append, stop_cell, List.append_assoc, List.append_assoc]
    rfl
  have hset : (c.out l (p ++ Code.cells [0] ++ q) t).code.set (c.code.length + (p c.here).length) v =
      (c.out l (p ++ Code.cells [v] ++ q) t).code := by
    rw [hcode, hcode, ← List.length_append, List.set_append_right _ _ le_rfl, Nat.sub_self,
      List.set_cons_zero]
  exact congrArg (fun code => Except.ok ((), { c with lex := l, code := code, ty := t })) hset

/-- A hole in front of three pieces is filled. -/
theorem run_fill_loop {q' r : Piece} : fill (c.code.length + (p c.here).length) v
    (c.out l (p ++ Code.cells [0] ++ q ++ q' ++ r) t) =
      .ok ((), c.out l (p ++ Code.cells [v] ++ q ++ q' ++ r) t) := by
  have hfill := run_fill (c := c) (l := l) (p := p) (q := q ++ q' ++ r) (t := t) (v := v)
  rwa [append_assoc q, ← append_assoc _ q, ← append_assoc _ q', ← append_assoc _ q,
    ← append_assoc _ q'] at hfill

end Comp

end BochsOs.C4
